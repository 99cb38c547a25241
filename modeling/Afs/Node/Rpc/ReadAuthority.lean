import Afs.Dfs
import Afs.Error
import Afs.Lib.Format
import Afs.Lib.Pairs

/-!
# `Node.Rpc.ReadAuthority` — the cache of read authorities

A node that serves chunks asks Meta whether the grant that a peer presents is good, and keeps the answer for a while. A
call of `authorize` goes through the sections of the source: it looks at the cache under its lock, asks Meta for what is
missing without the lock, and records the answers under the lock again. Any number of calls are under way, and the
clocks may move between any two steps of a call.

There are two clocks. `instant` never goes back; `wall` may be set to anything. The clocks stand still inside a section
that holds the lock.
-/

namespace Afs.Node

open Format List

/-! ## Grants -/

structure DfsReadGrant where
  namespaceId : NamespaceId
  fileVersionId : FileVersionId
  layoutRootId : LayoutRootId
  callerNodeId : String
  (callerNodeEpoch expiresAtUnixMs fence : UInt64)
  token : String
  deriving DecidableEq

structure DfsReadValidation where
  grant : DfsReadGrant
  chunkId : ChunkId
  copyId : CopyId
  (chunkOffset length : UInt64)
  deriving DecidableEq

structure DfsAuthorizedRead where
  validation : DfsReadValidation
  allowedRanges : List (UInt64 × UInt64)
  expiresAtUnixMs : UInt64

structure DfsChunkReadOp where
  operationIndex : UInt32
  chunkId : ChunkId
  (chunkOffset length : UInt64)
  grant : Option DfsReadGrant
  sourceCopyId : CopyId

structure DfsReadRangesRequest where
  (readId attemptId : String)
  fileVersionId : FileVersionId
  layoutRootId : LayoutRootId
  operations : List DfsChunkReadOp

variable {v : DfsReadValidation} {key : List UInt8} {peer : String} {obtained : Nat} {op : DfsChunkReadOp}
  {authorized : List DfsAuthorizedRead} {request : DfsReadRangesRequest} {check : List UInt8 × DfsReadValidation}
  {checks : List (List UInt8 × DfsReadValidation)} {now completedNow : UInt64}

def replicaDenied (message : String) : Error := ⟨.ioPermissionDenied, message⟩

def maxDfsReadOps : Nat := 128

def maxDfsReadBytes : UInt64 := 8 * 1024 * 1024

/-- What `validate_dfs_read_request` asks of the operation at an index. The answer is the sum of the lengths so far. -/
def validateDfsReadOp (now : UInt64) (request : DfsReadRangesRequest) (index : Nat) (op : DfsChunkReadOp)
    (total : UInt64) : Result UInt64 :=
  match op.grant with
  | none => .error ⟨.clientRemoteStatus, "DFS read operation has no grant"⟩
  | some grant =>
    if grant.namespaceId.value = "" ∨ grant.fileVersionId ≠ request.fileVersionId ∨
        grant.layoutRootId ≠ request.layoutRootId ∨ grant.callerNodeId = "" ∨ grant.callerNodeEpoch = 0 ∨
        grant.expiresAtUnixMs ≤ now ∨ grant.token = "" then
      .error ⟨.clientRemoteStatus, "DFS read operation grant identity or expiry is invalid"⟩
    else if op.chunkId.value = "" ∨ op.sourceCopyId.value = "" ∨ op.operationIndex.toNat ≠ index ∨ op.length = 0 ∨
        op.chunkOffset.checkedAdd op.length = none then
      .error ⟨.nodeTransferInvalid, "DFS read operation is invalid"⟩
    else
      match (total.checkedAdd op.length).filter fun total => total ≤ maxDfsReadBytes with
      | none => .error ⟨.nodeTransferInvalid, "DFS read batch exceeds byte budget"⟩
      | some total => .ok total

/-- The loop of `validate_dfs_read_request`. -/
def validateDfsReadOps (now : UInt64) (request : DfsReadRangesRequest) :
    Nat → List DfsChunkReadOp → UInt64 → Result Unit
  | _, [], _ => .ok ()
  | index, op :: rest, total => do
    let total ← validateDfsReadOp now request index op total
    validateDfsReadOps now request (index + 1) rest total

def validateDfsReadRequest (now : UInt64) (request : DfsReadRangesRequest) : Result Unit :=
  if request.readId = "" ∨ request.attemptId = "" ∨ request.fileVersionId.value = "" ∨
      request.layoutRootId.value = "" ∨ request.operations = [] ∨ maxDfsReadOps < request.operations.length then
    .error ⟨.nodeTransferInvalid, "DFS read batch identity or operation count is invalid"⟩
  else validateDfsReadOps now request 0 request.operations 0

/-! ## Keys -/

namespace ReadJson

def grant : Form DfsReadGrant :=
  (((string.closedBy (text ",\"file_version_id\":")).pair ((string.closedBy (text ",\"layout_root_id\":")).pair
    ((string.closedBy (text ",\"caller_node_id\":")).pair ((string.closedBy (text ",\"caller_node_epoch\":")).pair
    ((u64.closedBy (text ",\"expires_at_unix_ms\":")).pair ((u64.closedBy (text ",\"fence\":")).pair
    ((u64.closedBy (text ",\"token\":")).pair (string.closedBy (text "\x7d"))))))))).behind
      (text "\x7b\"namespace_id\":")).as
      (fun g => (g.namespaceId.value, g.fileVersionId.value, g.layoutRootId.value, g.callerNodeId, g.callerNodeEpoch,
        g.expiresAtUnixMs, g.fence, g.token))
    fun g => some ⟨⟨g.1⟩, ⟨g.2.1⟩, ⟨g.2.2.1⟩, g.2.2.2.1, g.2.2.2.2.1, g.2.2.2.2.2.1, g.2.2.2.2.2.2.1, g.2.2.2.2.2.2.2⟩

/-- The triple that names a cached authority. -/
def identity : Form (DfsReadGrant × ChunkId × CopyId) :=
  (((grant.closedBy (text ",")).pair ((string.closedBy (text ",")).pair (string.closedBy (text "]")))).behind
    (text "[")).as (fun i => (i.1, i.2.1.value, i.2.2.value)) fun i => some (i.1, ⟨i.2.1⟩, ⟨i.2.2⟩)

theorem grant_lawful : grant.Lawful anything :=
  (((closed string_lawful (by decide)).pair ((closed string_lawful (by decide)).pair
    ((closed string_lawful (by decide)).pair ((closed string_lawful (by decide)).pair
    ((closedNumber u64_lawful (by decide) (by decide) (by decide)).pair
    ((closedNumber u64_lawful (by decide) (by decide) (by decide)).pair
    ((closedNumber u64_lawful (by decide) (by decide) (by decide)).pair
    (closed string_lawful (by decide))))))))).behind (by decide)).as fun _ => rfl

theorem identity_lawful : identity.Lawful anything :=
  (((closed grant_lawful (by decide)).pair ((closed string_lawful (by decide)).pair
    (closed string_lawful (by decide)))).behind (by decide)).as fun _ => rfl

end ReadJson

/-- `read_authority_key`: the text that a cached authority is kept under. -/
def readAuthorityKey (validation : DfsReadValidation) : Result (List UInt8) :=
  let grant := validation.grant
  if grant.token.utf8ByteSize ≠ 76 ∨
      [grant.namespaceId.value, grant.fileVersionId.value, grant.layoutRootId.value, grant.callerNodeId,
        validation.chunkId.value, validation.copyId.value].any fun value => 512 < value.utf8ByteSize then
    .error (replicaDenied "read authority identity exceeds its bounded budget")
  else .ok (ReadJson.identity.print (grant, validation.chunkId, validation.copyId))

/-- The validations are for the same grant, chunk and copy. -/
def DfsReadValidation.SameSource (v w : DfsReadValidation) : Prop :=
  v.grant = w.grant ∧ v.chunkId = w.chunkId ∧ v.copyId = w.copyId

theorem sameSource_of_key {w} (hv : readAuthorityKey v = .ok key)
    (hw : readAuthorityKey w = .ok key) : v.SameSource w := by
  have hprint : ∀ {u}, readAuthorityKey u = .ok key →
      ReadJson.identity.print (u.grant, u.chunkId, u.copyId) = key := by
    intro u hu
    unfold readAuthorityKey at hu
    simp only at hu
    split at hu
    · cases hu
    · exact Except.ok.inj hu
  have hsame := ReadJson.identity_lawful.print_injective ((hprint hv).trans (hprint hw).symm)
  simpa [DfsReadValidation.SameSource] using hsame

/-- `authorized_read_range`: some range of the authority contains all of the operation. -/
def authorizedReadRange (entry : DfsAuthorizedRead) (offset length : UInt64) : Bool :=
  length ≠ 0 &&
    match offset.checkedAdd length with
    | none => false
    | some stop => entry.allowedRanges.any fun (start, count) =>
      start ≤ offset &&
        match start.checkedAdd count with
        | none => false
        | some limit => stop ≤ limit

theorem range_of_authorizedReadRange {entry offset length} (h : authorizedReadRange entry offset length = true) :
    ∃ range ∈ entry.allowedRanges, range.1.toNat ≤ offset.toNat ∧
      offset.toNat + length.toNat ≤ range.1.toNat + range.2.toNat := by
  simp only [authorizedReadRange, Bool.and_eq_true] at h
  obtain ⟨-, h⟩ := h
  split at h
  · cases h
  · next stop hstop =>
    obtain ⟨range, hrange, hcontains⟩ := any_eq_true.mp h
    simp only [Bool.and_eq_true, decide_eq_true_eq] at hcontains
    obtain ⟨hstart, hlimit⟩ := hcontains
    split at hlimit
    · cases hlimit
    · next limit hcount =>
      rw [UInt64.checkedAdd_eq_some] at hstop hcount
      have hle : stop.toNat ≤ limit.toNat := UInt64.le_iff_toNat_le.mp (of_decide_eq_true hlimit)
      exact ⟨range, hrange, UInt64.le_iff_toNat_le.mp hstart, by omega⟩

/-! ## The sections of `authorize` -/

/-- The validation that Meta is asked for an operation. -/
def DfsChunkReadOp.validation (op : DfsChunkReadOp) (grant : DfsReadGrant) : DfsReadValidation :=
  ⟨grant, op.chunkId, op.sourceCopyId, op.chunkOffset, op.length⟩

/-- What is looked up for an operation, with its key. -/
def readCheck (peer : String) (op : DfsChunkReadOp) : Result (List UInt8 × DfsReadValidation) :=
  match op.grant with
  | none => .error (replicaDenied "read operation grant is absent")
  | some grant =>
    if grant.callerNodeId ≠ peer then .error (replicaDenied "read capability belongs to another peer")
    else do
      let key ← readAuthorityKey (op.validation grant)
      return (key, op.validation grant)

def readChecks (peer : String) (request : DfsReadRangesRequest) : Result (List (List UInt8 × DfsReadValidation)) :=
  request.operations.mapM (readCheck peer)

structure CachedReadAuthority where
  authorization : DfsAuthorizedRead
  deadline : Nat

abbrev ReadCache := AList fun _ : List UInt8 => CachedReadAuthority

variable {entry : CachedReadAuthority} {cache : ReadCache}

/-- The cache without what has expired. -/
def ReadCache.live (cache : ReadCache) (instant : Nat) (now : UInt64) : ReadCache :=
  Pairs.retain (fun _ entry => instant < entry.deadline && now < entry.authorization.expiresAtUnixMs) cache

/-- The cache has an authority for the check. -/
def ReadCache.covers (cache : ReadCache) (check : List UInt8 × DfsReadValidation) : Bool :=
  match cache.lookup check.1 with
  | none => false
  | some entry => authorizedReadRange entry.authorization check.2.chunkOffset check.2.length

def ReadCache.missing (cache : ReadCache) (checks : List (List UInt8 × DfsReadValidation)) : List DfsReadValidation :=
  (checks.filter fun check => !cache.covers check).map Prod.snd

/-- The answer for a validation is the one that was asked for. -/
def preciseAuthority (completedNow : UInt64) (entry : DfsAuthorizedRead) (check : DfsReadValidation) : Bool :=
  !(decide (entry.validation ≠ check) || entry.allowedRanges.isEmpty || decide (128 < entry.allowedRanges.length) ||
    decide (entry.expiresAtUnixMs ≤ completedNow) || decide (check.grant.expiresAtUnixMs < entry.expiresAtUnixMs) ||
    !authorizedReadRange entry check.chunkOffset check.length)

def confirmAuthorities (completedNow : UInt64) (missing : List DfsReadValidation)
    (authorized : List DfsAuthorizedRead) : Result Unit :=
  if (authorized.zip missing).all fun (entry, check) => preciseAuthority completedNow entry check then .ok ()
  else .error (replicaDenied "read authority reply is not the precise requested capability")

def readCacheCapacity : Nat := 1024

/-- The key that the iteration over a map begins with. The order of a hash map may be any. -/
structure FirstKey where
  next : ReadCache → Option (List UInt8)
  next_mem : ∀ cache key, next cache = some key → key ∈ cache
  next_none : ∀ cache, next cache = none → cache.keys = []

/-- A full cache gives up an entry for a new one. -/
def ReadCache.makeRoom (order : FirstKey) (cache : ReadCache) (key : List UInt8) : ReadCache :=
  if readCacheCapacity ≤ cache.keys.length ∧ key ∉ cache then
    match order.next cache with
    | some old => cache.erase old
    | none => cache
  else cache

/-- The second section with the lock: the answers are recorded, each with its deadline. -/
def ReadCache.record (order : FirstKey) (instant : Nat) (completedNow : UInt64) :
    List DfsAuthorizedRead → ReadCache → ReadCache × Result Unit
  | [], cache => (cache, .ok ())
  | entry :: rest, cache =>
    match readAuthorityKey entry.validation with
    | .error e => (cache, .error e)
    | .ok key =>
      let remaining := min (entry.expiresAtUnixMs.saturatingSub completedNow) 5000
      ReadCache.record order instant completedNow rest
        ((cache.makeRoom order key).insert key ⟨entry, instant + remaining.toNat⟩)

/-! ## Calls -/

/-- An answer of Meta, with the call that has asked for it and the time it arrived. -/
structure MetaReply where
  call : Nat
  peer : String
  obtained : Nat
  entry : DfsAuthorizedRead

/-- Where a call of `authorize` is. The times are those of the clocks when the call was at that point. -/
inductive ReadPhase
  | arrived | admitted
  | prepared (now : UInt64) (checks : List (List UInt8 × DfsReadValidation))
  | asking (instant : Nat) (wall : UInt64) (missing : List DfsReadValidation)
  | answered (instant : Nat) (wall : UInt64) (missing : List DfsReadValidation) (obtained : Nat)
      (authorized : List DfsAuthorizedRead)
  | confirmed (instant : Nat) (wall : UInt64) (missing : List DfsReadValidation) (obtained : Nat)
      (authorized : List DfsAuthorizedRead) (completedNow : UInt64)
  /-- The call has returned `Ok`. The cache was checked at `instant` and `wall`, the answers of Meta at
      `completedNow`. -/
  | granted (instant : Nat) (wall : UInt64) (completedNow : Option UInt64)
  | refused (e : Error)

structure ReadCall where
  peer : String
  request : DfsReadRangesRequest
  phase : ReadPhase

structure ReadAuthorizer where
  instant : Nat
  wall : UInt64
  cache : ReadCache
  calls : Nat → Option ReadCall
  /-- The answers that Meta has given. -/
  replies : List MetaReply

def ReadAuthorizer.new (instant : Nat) (wall : UInt64) : ReadAuthorizer := ⟨instant, wall, ∅, fun _ => none, []⟩

/-- The call goes on to a phase. -/
def ReadAuthorizer.goesTo (s : ReadAuthorizer) (i : Nat) (call : ReadCall) (phase : ReadPhase) : ReadAuthorizer :=
  { s with calls := Function.update s.calls i (some ⟨call.peer, call.request, phase⟩) }

@[simp] theorem ReadAuthorizer.goesTo_calls_self (s : ReadAuthorizer) (i : Nat) (call : ReadCall) (phase : ReadPhase) :
    (s.goesTo i call phase).calls i = some ⟨call.peer, call.request, phase⟩ := Function.update_self ..

theorem ReadAuthorizer.goesTo_calls_of_ne (s : ReadAuthorizer) {i j} (h : j ≠ i) (call : ReadCall)
    (phase : ReadPhase) : (s.goesTo i call phase).calls j = s.calls j := Function.update_of_ne h ..

@[simp] theorem ReadAuthorizer.goesTo_goesTo (s : ReadAuthorizer) (i : Nat) (call call' : ReadCall)
    (phase phase' : ReadPhase) : (s.goesTo i call phase).goesTo i call' phase' = s.goesTo i call' phase' := by
  simp [ReadAuthorizer.goesTo]

/-- The phase after a fallible step. -/
def ReadPhase.orRefused {α : Type} (result : Result α) (next : α → ReadPhase) : ReadPhase :=
  match result with
  | .ok a => next a
  | .error e => .refused e

inductive ReadAction
  | tick (instant : Nat) (wall : UInt64)
  | arrive (i : Nat) (peer : String) (request : DfsReadRangesRequest)
  | validate (i : Nat)
  | prepare (i : Nat)
  | lookup (i : Nat)
  | reply (i : Nat) (answer : Result (List DfsAuthorizedRead))
  | confirm (i : Nat)
  | record (i : Nat) (order : FirstKey)

variable {allowed : ReadAuthorizer → ReadAction → Prop}

/-- A step of the clocks or of one call. -/
inductive ReadStep : ReadAuthorizer → ReadAction → ReadAuthorizer → Prop
  | tick (s : ReadAuthorizer) (instant : Nat) (wall : UInt64) (hinstant : s.instant ≤ instant) :
      ReadStep s (.tick instant wall) { s with instant := instant, wall := wall }
  | arrive (s : ReadAuthorizer) (i : Nat) (peer : String) (request : DfsReadRangesRequest) (hfresh : s.calls i = none) :
      ReadStep s (.arrive i peer request) (s.goesTo i ⟨peer, request, .arrived⟩ .arrived)
  | validate (s : ReadAuthorizer) (i : Nat) (call : ReadCall) (hcall : s.calls i = some call)
      (hphase : call.phase = .arrived) :
      ReadStep s (.validate i)
        (s.goesTo i call (.orRefused (validateDfsReadRequest s.wall call.request) fun _ => .admitted))
  | prepare (s : ReadAuthorizer) (i : Nat) (call : ReadCall) (hcall : s.calls i = some call)
      (hphase : call.phase = .admitted) :
      ReadStep s (.prepare i) (s.goesTo i call (.orRefused (readChecks call.peer call.request) (.prepared s.wall)))
  /-- The first section with the lock. The call returns when nothing is missing. -/
  | lookup (s : ReadAuthorizer) (i : Nat) (call : ReadCall) (now : UInt64)
      (checks : List (List UInt8 × DfsReadValidation))
      (hcall : s.calls i = some call) (hphase : call.phase = .prepared now checks) :
      ReadStep s (.lookup i)
        ({ s with cache := s.cache.live s.instant now }.goesTo i call
          (if (s.cache.live s.instant now).missing checks = [] then .granted s.instant s.wall none
          else .asking s.instant s.wall ((s.cache.live s.instant now).missing checks)))
  /-- Meta fails, or its answer is not complete, or the call goes on with it. -/
  | reply (s : ReadAuthorizer) (i : Nat) (call : ReadCall) (instant : Nat) (wall : UInt64)
      (missing : List DfsReadValidation) (answer : Result (List DfsAuthorizedRead)) (hcall : s.calls i = some call)
      (hphase : call.phase = .asking instant wall missing) :
      ReadStep s (.reply i answer)
        ({ s with replies := s.replies ++
            ((answer.toOption.getD []).map fun entry => (⟨i, call.peer, s.instant, entry⟩ : MetaReply)) }.goesTo i call
          (.orRefused answer fun authorized =>
            if authorized.length ≠ missing.length then .refused (replicaDenied "read authority reply is incomplete")
            else .answered instant wall missing s.instant authorized))
  | confirm (s : ReadAuthorizer) (i : Nat) (call : ReadCall) (instant : Nat) (wall : UInt64)
      (missing : List DfsReadValidation) (obtained : Nat) (authorized : List DfsAuthorizedRead)
      (hcall : s.calls i = some call) (hphase : call.phase = .answered instant wall missing obtained authorized) :
      ReadStep s (.confirm i)
        (s.goesTo i call (.orRefused (confirmAuthorities s.wall missing authorized) fun _ =>
          .confirmed instant wall missing obtained authorized s.wall))
  | record (s : ReadAuthorizer) (i : Nat) (order : FirstKey) (call : ReadCall) (instant : Nat) (wall : UInt64)
      (missing : List DfsReadValidation) (obtained : Nat) (authorized : List DfsAuthorizedRead) (completedNow : UInt64)
      (hcall : s.calls i = some call)
      (hphase : call.phase = .confirmed instant wall missing obtained authorized completedNow) :
      ReadStep s (.record i order)
        ({ s with cache := (s.cache.record order s.instant completedNow authorized).1 }.goesTo i call
          (.orRefused (s.cache.record order s.instant completedNow authorized).2 fun _ =>
            .granted instant wall (some completedNow)))

/-- A run whose steps are all allowed. -/
inductive ReadRun (allowed : ReadAuthorizer → ReadAction → Prop) : ReadAuthorizer → ReadAuthorizer → Prop
  | refl (s : ReadAuthorizer) : ReadRun allowed s s
  | step {s s' s'' : ReadAuthorizer} {action : ReadAction} (run : ReadRun allowed s s') (hallowed : allowed s' action)
      (step : ReadStep s' action s'') : ReadRun allowed s s''

/-- **No authority outlives its time on the way.** No cached authority expires between the moment a call reads the wall
    clock and its look at the cache, and what Meta has answered is recorded at once, or would have expired within five
    seconds of its arrival even from now on. -/
def Prompt (s : ReadAuthorizer) : ReadAction → Prop
  | .lookup i => ∀ call now checks, s.calls i = some call → call.phase = .prepared now checks →
    ∀ key entry, s.cache.lookup key = some entry → now < entry.authorization.expiresAtUnixMs →
      s.wall < entry.authorization.expiresAtUnixMs
  | .record i _ => ∀ call instant wall missing obtained authorized completedNow, s.calls i = some call →
    call.phase = .confirmed instant wall missing obtained authorized completedNow →
      s.instant = obtained ∨
        ∀ entry ∈ authorized, s.instant + (entry.expiresAtUnixMs.toNat - completedNow.toNat) ≤ obtained + 5000
  | _ => True

/-! ## What a granted call rests on -/

/-- Meta has answered that the peer may read what the validation asks for. -/
structure Supports (replies : List MetaReply) (peer : String) (v : DfsReadValidation) (reply : MetaReply) : Prop where
  given : reply ∈ replies
  peer : reply.peer = peer
  source : reply.entry.validation.SameSource v
  range : authorizedReadRange reply.entry v.chunkOffset v.length = true

/-- The answer was obtained before the time the cache was checked. If the run was prompt, that was at most five seconds
    before, and the answer had not expired. -/
def OnTime (prompt : Prop) (instant : Nat) (wall : UInt64) (reply : MetaReply) : Prop :=
  reply.obtained ≤ instant ∧
    (prompt → instant ≤ reply.obtained + 5000 ∧ wall < reply.entry.expiresAtUnixMs)

/-- The answer was obtained by the call itself and had not expired when the call has read the clock again. -/
def Fetched (i : Nat) (completedNow : UInt64) (reply : MetaReply) : Prop :=
  reply.call = i ∧ completedNow < reply.entry.expiresAtUnixMs

/-- What a cached authority comes from. -/
def Cached (prompt : Prop) (replies : List MetaReply) (key : List UInt8) (cached : CachedReadAuthority) : Prop :=
  ∃ reply ∈ replies, reply.entry = cached.authorization ∧
    reply.peer = cached.authorization.validation.grant.callerNodeId ∧
    readAuthorityKey cached.authorization.validation = .ok key ∧ (prompt → cached.deadline ≤ reply.obtained + 5000)

/-- The checks of a call that has looked at the cache: what is not missing was in it. -/
def Looked (prompt : Prop) (replies : List MetaReply) (call : ReadCall) (instant : Nat) (wall : UInt64)
    (missing : List DfsReadValidation) : Prop :=
  (∀ v ∈ missing, v.grant.callerNodeId = call.peer) ∧
    ∃ checks, readChecks call.peer call.request = .ok checks ∧ ∀ check ∈ checks, check.2 ∈ missing ∨
      ∃ reply, Supports replies call.peer check.2 reply ∧ OnTime prompt instant wall reply

/-- The answers to the missing validations are on record. -/
def Answered (replies : List MetaReply) (i : Nat) (call : ReadCall) (missing : List DfsReadValidation) (obtained : Nat)
    (authorized : List DfsAuthorizedRead) : Prop :=
  authorized.length = missing.length ∧ ∀ entry ∈ authorized, ⟨i, call.peer, obtained, entry⟩ ∈ replies

/-- What a call rests on in its phase. -/
def ReadCall.Rests (prompt : Prop) (replies : List MetaReply) (i : Nat) (call : ReadCall) : Prop :=
  match call.phase with
  | .arrived | .admitted | .refused _ => True
  | .prepared _ checks => readChecks call.peer call.request = .ok checks
  | .asking instant wall missing => Looked prompt replies call instant wall missing
  | .answered instant wall missing obtained authorized =>
    Looked prompt replies call instant wall missing ∧ Answered replies i call missing obtained authorized
  | .confirmed instant wall missing obtained authorized completedNow =>
    Looked prompt replies call instant wall missing ∧ Answered replies i call missing obtained authorized ∧
      confirmAuthorities completedNow missing authorized = .ok ()
  | .granted instant wall completedNow =>
    ∃ checks, readChecks call.peer call.request = .ok checks ∧ ∀ check ∈ checks,
      ∃ reply, Supports replies call.peer check.2 reply ∧
        (OnTime prompt instant wall reply ∨ ∃ time, completedNow = some time ∧ Fetched i time reply)

structure ReadInv (prompt : Prop) (s : ReadAuthorizer) : Prop where
  bounded : s.cache.keys.length ≤ readCacheCapacity
  past : ∀ reply ∈ s.replies, reply.obtained ≤ s.instant
  cached : ∀ key entry, s.cache.lookup key = some entry → Cached prompt s.replies key entry
  calls : ∀ i call, s.calls i = some call → call.Rests prompt s.replies i

section Steps

variable {prompt : Prop} {replies more : List MetaReply} {s s' : ReadAuthorizer} {action : ReadAction} {i : Nat}
  {call : ReadCall} {instant : Nat} {wall : UInt64} {missing : List DfsReadValidation}

theorem Supports.mono {reply} (h : Supports replies peer v reply) (hmore : replies ⊆ more) :
    Supports more peer v reply := { h with given := hmore h.given }

theorem Cached.mono (h : Cached prompt replies key entry) (hmore : replies ⊆ more) : Cached prompt more key entry := by
  obtain ⟨reply, hreply, hrest⟩ := h
  exact ⟨reply, hmore hreply, hrest⟩

theorem Looked.mono (h : Looked prompt replies call instant wall missing) (hmore : replies ⊆ more) :
    Looked prompt more call instant wall missing := by
  obtain ⟨hpeer, checks, hchecks, hall⟩ := h
  refine ⟨hpeer, checks, hchecks, fun check hcheck => (hall check hcheck).imp_right ?_⟩
  rintro ⟨reply, hsupports, htime⟩
  exact ⟨reply, hsupports.mono hmore, htime⟩

theorem Answered.mono (h : Answered replies i call missing obtained authorized) (hmore : replies ⊆ more) :
    Answered more i call missing obtained authorized :=
  ⟨h.1, fun entry hentry => hmore (h.2 entry hentry)⟩

/-- What a call rests on stays when Meta answers more. -/
theorem ReadCall.Rests.mono (h : call.Rests prompt replies i) (hmore : replies ⊆ more) :
    call.Rests prompt more i := by
  obtain ⟨peer, request, phase⟩ := call
  cases phase with
  | arrived | admitted | refused => trivial
  | prepared => exact h
  | asking => exact Looked.mono h hmore
  | answered => exact ⟨Looked.mono h.1 hmore, Answered.mono h.2 hmore⟩
  | confirmed => exact ⟨Looked.mono h.1 hmore, Answered.mono h.2.1 hmore, h.2.2⟩
  | granted =>
    obtain ⟨checks, hchecks, hall⟩ := h
    refine ⟨checks, hchecks, fun check hcheck => ?_⟩
    obtain ⟨reply, hsupports, htime⟩ := hall check hcheck
    exact ⟨reply, hsupports.mono hmore, htime⟩

/-- A call goes on, with the cache and the answers as they are then. -/
theorem ReadInv.goesTo (h : ReadInv prompt s) (cache : ReadCache) (more : List MetaReply) (phase : ReadPhase)
    (hbounded : cache.keys.length ≤ readCacheCapacity) (hpast : ∀ reply ∈ more, reply.obtained ≤ s.instant)
    (hmore : s.replies ⊆ more) (hcached : ∀ key entry, cache.lookup key = some entry → Cached prompt more key entry)
    (hcall : ReadCall.Rests prompt more i ⟨call.peer, call.request, phase⟩) :
    ReadInv prompt ({ s with cache := cache, replies := more }.goesTo i call phase) where
  bounded := hbounded
  past := hpast
  cached := hcached
  calls := by
    intro j other hother
    by_cases hij : j = i
    · subst hij
      rw [ReadAuthorizer.goesTo_calls_self] at hother
      cases hother
      exact hcall
    · rw [ReadAuthorizer.goesTo_calls_of_ne _ hij] at hother
      exact (h.calls j other hother).mono hmore

/-- A step that only moves the call on. -/
theorem ReadInv.moves (h : ReadInv prompt s) {phase}
    (hcall : ReadCall.Rests prompt s.replies i ⟨call.peer, call.request, phase⟩) :
    ReadInv prompt (s.goesTo i call phase) :=
  h.goesTo s.cache s.replies phase h.bounded h.past (fun _ hreply => hreply) h.cached hcall

/-! ## The first section -/

/-- Every check is that of an operation, and every operation has its check. -/
theorem mem_readChecks (h : readChecks peer request = .ok checks) :
    (∀ check ∈ checks, ∃ op ∈ request.operations, readCheck peer op = .ok check) ∧
      ∀ op ∈ request.operations, ∃ check ∈ checks, readCheck peer op = .ok check := by
  unfold readChecks at h
  generalize request.operations = ops at h ⊢
  induction ops generalizing checks with
  | nil =>
    cases h
    exact ⟨nofun, nofun⟩
  | cons op rest ih =>
    rw [mapM_cons] at h
    obtain ⟨check, hcheck, h⟩ := bind_eq_ok.mp h
    obtain ⟨more, hrest, h⟩ := bind_eq_ok.mp h
    cases h
    obtain ⟨hchecks, hops⟩ := ih hrest
    simp only [forall_mem_cons, exists_mem_cons_iff]
    exact ⟨⟨.inl hcheck, fun other hother => .inr (hchecks other hother)⟩, .inl hcheck,
      fun other hother => .inr (hops other hother)⟩

/-- What is looked up for an operation. -/
theorem readCheck_ok (h : readCheck peer op = .ok check) :
    ∃ grant, op.grant = some grant ∧ grant.callerNodeId = peer ∧ check.2 = op.validation grant ∧
      readAuthorityKey check.2 = .ok check.1 := by
  unfold readCheck at h
  split at h
  · cases h
  · next grant hgrant =>
    split at h
    · cases h
    · next hpeer =>
      obtain ⟨key, hkey, h⟩ := bind_eq_ok.mp h
      cases h
      exact ⟨grant, hgrant, not_not.mp hpeer, rfl, hkey⟩

/-- An entry that the first section finds comes from an answer of Meta to the same peer for the same source. -/
theorem ReadInv.hit (h : ReadInv prompt s) (hkey : readAuthorityKey check.2 = .ok check.1)
    (hpeer : check.2.grant.callerNodeId = call.peer)
    (hprompt : prompt → ∀ key entry, s.cache.lookup key = some entry → now < entry.authorization.expiresAtUnixMs →
      s.wall < entry.authorization.expiresAtUnixMs) (hcovers : (s.cache.live s.instant now).covers check = true) :
    ∃ reply, Supports s.replies call.peer check.2 reply ∧ OnTime prompt s.instant s.wall reply := by
  unfold ReadCache.covers at hcovers
  split at hcovers
  · cases hcovers
  · next entry hlookup =>
    obtain ⟨hentry, hlive⟩ := Pairs.lookup_retain.mp hlookup
    simp only [Bool.and_eq_true, decide_eq_true_eq] at hlive
    obtain ⟨reply, hreply, heq, hreplyPeer, hreplyKey, hdeadline⟩ := h.cached _ entry hentry
    have hsource := sameSource_of_key hreplyKey hkey
    have hsupports : Supports s.replies call.peer check.2 reply :=
      { given := hreply
        peer := by rw [hreplyPeer, hsource.1, hpeer]
        source := heq ▸ hsource
        range := heq ▸ hcovers }
    refine ⟨reply, hsupports, h.past reply hreply, ?_⟩
    intro hp
    have hbound := hdeadline hp
    exact ⟨by omega, heq ▸ hprompt hp _ entry hentry hlive.2⟩

/-- The first section with the lock keeps what the calls rest on. -/
theorem ReadInv.lookup (h : ReadInv prompt s) (hchecks : readChecks call.peer call.request = .ok checks)
    (hprompt : prompt → ∀ key entry, s.cache.lookup key = some entry → now < entry.authorization.expiresAtUnixMs →
      s.wall < entry.authorization.expiresAtUnixMs) :
    ReadInv prompt ({ s with cache := s.cache.live s.instant now }.goesTo i call
      (if (s.cache.live s.instant now).missing checks = [] then .granted s.instant s.wall none
      else .asking s.instant s.wall ((s.cache.live s.instant now).missing checks))) := by
  have hcheck : ∀ check ∈ checks, readAuthorityKey check.2 = .ok check.1 ∧ check.2.grant.callerNodeId = call.peer := by
    intro check hmem
    obtain ⟨op, -, hop⟩ := (mem_readChecks hchecks).1 check hmem
    obtain ⟨grant, -, hpeer, hvalidation, hkey⟩ := readCheck_ok hop
    exact ⟨hkey, by rw [hvalidation]; exact hpeer⟩
  have hlooked : Looked prompt s.replies call s.instant s.wall ((s.cache.live s.instant now).missing checks) := by
    refine ⟨?_, checks, hchecks, ?_⟩
    · intro v hv
      obtain ⟨check, hmem, rfl⟩ := mem_map.mp hv
      exact (hcheck check (mem_filter.mp hmem).1).2
    · intro check hmem
      cases hcovers : (s.cache.live s.instant now).covers check with
      | false => exact .inl (mem_map.mpr ⟨check, mem_filter.mpr ⟨hmem, by simp [hcovers]⟩, rfl⟩)
      | true => exact .inr (h.hit (hcheck check hmem).1 (hcheck check hmem).2 hprompt hcovers)
  refine h.goesTo _ s.replies _ ((Pairs.length_keys_retain_le _ _).trans h.bounded) h.past
    (fun _ hreply => hreply) ?_ ?_
  · intro key entry hentry
    exact h.cached key entry (Pairs.lookup_retain.mp hentry).1
  · split
    · next hnone =>
      -- nothing is missing
      obtain ⟨-, checks, hchecks, hall⟩ := hlooked
      refine ⟨checks, hchecks, fun check hmem => ?_⟩
      obtain hmissing | ⟨reply, hsupports, htime⟩ := hall check hmem
      · rw [hnone] at hmissing
        cases hmissing
      · exact ⟨reply, hsupports, .inl htime⟩
    · exact hlooked

/-! ## The second section -/

theorem ReadCache.length_makeRoom_insert (order : FirstKey) (key : List UInt8) (entry : CachedReadAuthority)
    (h : cache.keys.length ≤ readCacheCapacity) :
    ((cache.makeRoom order key).insert key entry).keys.length ≤ readCacheCapacity := by
  unfold ReadCache.makeRoom
  split
  · next hfull =>
    cases hnext : order.next cache with
    | none =>
      have hempty := order.next_none cache hnext
      rw [hempty] at hfull
      exact absurd hfull.1 (by decide)
    | some old =>
      have herase := Pairs.length_keys_erase (order.next_mem cache old hnext)
      have hinsert := Pairs.length_keys_insert_le (cache.erase old) key entry
      simp only
      omega
  · next hfits =>
    by_cases hmem : key ∈ cache
    · rw [Pairs.length_keys_insert_of_mem hmem]
      exact h
    · have hroom : ¬readCacheCapacity ≤ cache.keys.length := fun hfull => hfits ⟨hfull, hmem⟩
      have hinsert := Pairs.length_keys_insert_le cache key entry
      omega

theorem ReadCache.lookup_makeRoom {order other}
    (h : (cache.makeRoom order key).lookup other = some entry) : cache.lookup other = some entry := by
  unfold ReadCache.makeRoom at h
  split at h
  · split at h
    · next old _ =>
      by_cases hold : other = old
      · subst hold
        simp at h
      · rwa [AList.lookup_erase_ne hold] at h
    · exact h
  · exact h

/-- Recording answers keeps the bound and adds only what Meta has answered. -/
theorem ReadCache.record_cached (order : FirstKey) (hbounded : cache.keys.length ≤ readCacheCapacity)
    (hcached : ∀ key entry, cache.lookup key = some entry → Cached prompt replies key entry)
    (hnew : ∀ entry ∈ authorized, ∀ key, readAuthorityKey entry.validation = .ok key → Cached prompt replies key
      ⟨entry, instant + (min (entry.expiresAtUnixMs.saturatingSub completedNow) 5000).toNat⟩) :
    (cache.record order instant completedNow authorized).1.keys.length ≤ readCacheCapacity ∧
      ∀ key entry, (cache.record order instant completedNow authorized).1.lookup key = some entry →
        Cached prompt replies key entry := by
  induction authorized generalizing cache with
  | nil => exact ⟨hbounded, hcached⟩
  | cons entry rest ih =>
    unfold ReadCache.record
    split
    · exact ⟨hbounded, hcached⟩
    · next key hkey =>
      refine ih (ReadCache.length_makeRoom_insert order key _ hbounded) ?_ fun e he => hnew e (mem_cons_of_mem _ he)
      intro other found hfound
      by_cases hother : other = key
      · subst hother
        rw [AList.lookup_insert] at hfound
        cases hfound
        exact hnew entry mem_cons_self other hkey
      · rw [AList.lookup_insert_ne hother] at hfound
        exact hcached other found (ReadCache.lookup_makeRoom hfound)

/-- The answers that were confirmed are those that were asked for. -/
theorem precise_of_confirm (h : confirmAuthorities completedNow missing authorized = .ok ())
    (hlength : authorized.length = missing.length) :
    (∀ entry ∈ authorized, entry.validation ∈ missing) ∧
      ∀ v ∈ missing, ∃ entry ∈ authorized, entry.validation = v ∧ completedNow < entry.expiresAtUnixMs ∧
        authorizedReadRange entry v.chunkOffset v.length = true := by
  have hall : ∀ pair ∈ authorized.zip missing, preciseAuthority completedNow pair.1 pair.2 = true := by
    unfold confirmAuthorities at h
    split at h
    · next hall => exact all_eq_true.mp hall
    · cases h
  have hprecise : ∀ n (_ : n < missing.length), authorized[n].validation = missing[n] ∧
      completedNow < authorized[n].expiresAtUnixMs ∧
      authorizedReadRange authorized[n] missing[n].chunkOffset missing[n].length = true := by
    intro n hn
    have hpair := hall (authorized[n], missing[n]) (mem_iff_getElem.mpr ⟨n, by simp; omega, by simp⟩)
    simp only [preciseAuthority, Bool.not_eq_true', Bool.or_eq_false_iff, decide_eq_false_iff_not, not_not,
      Bool.not_eq_false', UInt64.not_le] at hpair
    exact ⟨hpair.1.1.1.1.1, hpair.1.1.2, hpair.2⟩
  refine ⟨?_, ?_⟩
  · intro entry hentry
    obtain ⟨n, hn, rfl⟩ := getElem_of_mem hentry
    rw [(hprecise n (hlength ▸ hn)).1]
    exact getElem_mem _
  · intro v hv
    obtain ⟨n, hn, rfl⟩ := getElem_of_mem hv
    exact ⟨authorized[n], getElem_mem _, hprecise n hn⟩

/-- What was confirmed may be recorded, in time if the run is prompt. -/
theorem ReadInv.record (h : ReadInv prompt s) (order : FirstKey)
    (hlooked : Looked prompt s.replies call instant wall missing)
    (hanswered : Answered s.replies i call missing obtained authorized)
    (hconfirmed : confirmAuthorities completedNow missing authorized = .ok ())
    (hprompt : prompt → s.instant = obtained ∨
      ∀ entry ∈ authorized, s.instant + (entry.expiresAtUnixMs.toNat - completedNow.toNat) ≤ obtained + 5000) :
    ReadInv prompt ({ s with cache := (s.cache.record order s.instant completedNow authorized).1 }.goesTo i call
      (.orRefused (s.cache.record order s.instant completedNow authorized).2 fun _ =>
        .granted instant wall (some completedNow))) := by
  obtain ⟨hasked, hfound⟩ := precise_of_confirm hconfirmed hanswered.1
  have hnew : ∀ entry ∈ authorized, ∀ key, readAuthorityKey entry.validation = .ok key → Cached prompt s.replies key
      ⟨entry, s.instant + (min (entry.expiresAtUnixMs.saturatingSub completedNow) 5000).toNat⟩ := by
    intro entry hentry key hkey
    refine ⟨_, hanswered.2 entry hentry, rfl, (hlooked.1 _ (hasked entry hentry)).symm, hkey, ?_⟩
    intro hp
    show s.instant + (min (entry.expiresAtUnixMs.saturatingSub completedNow) 5000).toNat ≤ obtained + 5000
    have hmin : (min (entry.expiresAtUnixMs.saturatingSub completedNow) 5000).toNat =
        min (entry.expiresAtUnixMs.toNat - completedNow.toNat) 5000 := by
      rw [UInt64.toNat_min, UInt64.toNat_saturatingSub]
      rfl
    obtain hnow | hsoon := hprompt hp
    · omega
    · have hsoon := hsoon entry hentry
      omega
  obtain ⟨hbounded, hcached⟩ := ReadCache.record_cached order h.bounded h.cached hnew
  refine h.goesTo _ s.replies _ hbounded h.past (fun _ hreply => hreply) hcached ?_
  cases (s.cache.record order s.instant completedNow authorized).2 with
  | error e => trivial
  | ok _ =>
    obtain ⟨-, checks, hchecks, hall⟩ := hlooked
    refine ⟨checks, hchecks, fun check hmem => ?_⟩
    obtain hmissing | ⟨reply, hsupports, htime⟩ := hall check hmem
    · obtain ⟨entry, hentry, hvalidation, hexpires, hrange⟩ := hfound _ hmissing
      have hsupports : Supports s.replies call.peer check.2 ⟨i, call.peer, obtained, entry⟩ :=
        { given := hanswered.2 entry hentry
          peer := rfl
          source := hvalidation ▸ ⟨rfl, rfl, rfl⟩
          range := hrange }
      exact ⟨_, hsupports, .inr ⟨completedNow, rfl, rfl, hexpires⟩⟩
    · exact ⟨reply, hsupports, .inl htime⟩

/-- **Every step keeps what the calls rest on.** -/
theorem ReadStep.inv (hstep : ReadStep s action s') (hprompt : prompt → Prompt s action) (h : ReadInv prompt s) :
    ReadInv prompt s' := by
  cases hstep with
  | tick instant wall hinstant => exact { h with past := fun reply hreply => (h.past reply hreply).trans hinstant }
  | arrive => exact h.moves trivial
  | validate _ call =>
    apply h.moves
    cases validateDfsReadRequest s.wall call.request with
    | error e => trivial
    | ok _ => trivial
  | prepare _ call =>
    apply h.moves
    cases hchecks : readChecks call.peer call.request with
    | error e => trivial
    | ok checks => exact hchecks
  | lookup i call now checks hcall hphase =>
    have hrests := h.calls i call hcall
    simp only [ReadCall.Rests, hphase] at hrests
    exact h.lookup hrests fun hp => hprompt hp call now checks hcall hphase
  | reply i call _ _ _ answer hcall hphase =>
    have hrests := h.calls i call hcall
    simp only [ReadCall.Rests, hphase] at hrests
    refine h.goesTo s.cache _ _ h.bounded ?_ (subset_append_left _ _) ?_ ?_
    · intro reply hreply
      rcases mem_append.mp hreply with hreply | hreply
      · exact h.past reply hreply
      · obtain ⟨entry, -, rfl⟩ := mem_map.mp hreply
        exact le_refl _
    · intro key entry hentry
      exact (h.cached key entry hentry).mono (subset_append_left _ _)
    · cases answer with
      | error e => trivial
      | ok =>
        simp only [ReadPhase.orRefused]
        split
        · trivial
        · next hlength =>
          refine ⟨hrests.mono (subset_append_left _ _), not_not.mp hlength, ?_⟩
          intro entry hentry
          exact mem_append_right _ (mem_map.mpr ⟨entry, hentry, rfl⟩)
  | confirm i call _ _ missing _ authorized hcall hphase =>
    have hrests := h.calls i call hcall
    simp only [ReadCall.Rests, hphase] at hrests
    apply h.moves
    cases hconfirmed : confirmAuthorities s.wall missing authorized with
    | error e => trivial
    | ok _ => exact ⟨hrests.1, hrests.2, hconfirmed⟩
  | record i order call instant wall missing obtained authorized completedNow hcall hphase =>
    have hrests := h.calls i call hcall
    simp only [ReadCall.Rests, hphase] at hrests
    exact h.record order hrests.1 hrests.2.1 hrests.2.2
      fun hp => hprompt hp call instant wall missing obtained authorized completedNow hcall hphase

theorem readInv_new (instant : Nat) (wall : UInt64) : ReadInv prompt (.new instant wall) where
  bounded := Nat.zero_le _
  past := nofun
  cached := nofun
  calls := nofun

theorem ReadRun.inv (hrun : ReadRun allowed s s') (hprompt : prompt → ∀ s action, allowed s action → Prompt s action)
    (h : ReadInv prompt s) : ReadInv prompt s' := by
  induction hrun with
  | refl => exact h
  | step run hallowed step ih => exact step.inv (fun hp => hprompt hp _ _ hallowed) ih

/-- What a granted call rests on, for each of its operations. -/
theorem ReadInv.granted (h : ReadInv prompt s) {instant wall completedNow}
    (hcall : s.calls i = some ⟨peer, request, .granted instant wall completedNow⟩) (hop : op ∈ request.operations) :
    ∃ grant, op.grant = some grant ∧ grant.callerNodeId = peer ∧
      ∃ reply, Supports s.replies peer (op.validation grant) reply ∧
        (OnTime prompt instant wall reply ∨ ∃ time, completedNow = some time ∧ Fetched i time reply) := by
  obtain ⟨checks, hchecks, hall⟩ := h.calls i _ hcall
  obtain ⟨check, hcheck, hop⟩ := (mem_readChecks hchecks).2 op hop
  obtain ⟨grant, hgrant, hpeer, hvalidation, -⟩ := readCheck_ok hop
  obtain ⟨reply, hsupports, htime⟩ := hall check hcheck
  exact ⟨grant, hgrant, hpeer, reply, hvalidation ▸ hsupports, htime⟩

end Steps

/-- Every operation of every call that has returned `Ok` is covered by an answer of Meta: to the same peer, for the same
    grant, chunk and copy, with an allowed range that contains all of the operation. The answer was obtained before the
    cache was checked, or by the call itself. -/
def Justified (prompt : Prop) (s : ReadAuthorizer) : Prop :=
  ∀ i peer request instant wall completedNow,
    s.calls i = some ⟨peer, request, .granted instant wall completedNow⟩ → ∀ op ∈ request.operations,
      ∃ grant, op.grant = some grant ∧ grant.callerNodeId = peer ∧
        ∃ reply, Supports s.replies peer (op.validation grant) reply ∧
          (∃ range ∈ reply.entry.allowedRanges, range.1.toNat ≤ op.chunkOffset.toNat ∧
            op.chunkOffset.toNat + op.length.toNat ≤ range.1.toNat + range.2.toNat) ∧
          (OnTime prompt instant wall reply ∨ ∃ time, completedNow = some time ∧ Fetched i time reply)

theorem ReadInv.justified {prompt : Prop} {s} (h : ReadInv prompt s) : Justified prompt s := by
  intro i peer request instant wall completedNow hcall op hop
  obtain ⟨grant, hgrant, hpeer, reply, hsupports, htime⟩ := h.granted hcall hop
  exact ⟨grant, hgrant, hpeer, reply, hsupports, range_of_authorizedReadRange hsupports.range, htime⟩

/-- **The cache grants nothing that Meta did not.** In every run the cache keeps its bound and every operation that is
    granted is covered by an answer of Meta. If all steps are prompt, the answer was moreover obtained at most five
    seconds before the check of the cache and had not expired then, or it was obtained by the call itself. -/
theorem read_cache_grants_what_meta_granted (instant : Nat) (wall : UInt64) :
    (∀ s, ReadRun (fun _ _ => True) (.new instant wall) s → s.cache.keys.length ≤ 1024 ∧ Justified False s) ∧
      ∀ s, ReadRun Prompt (.new instant wall) s → Justified True s := by
  refine ⟨?_, ?_⟩
  · intro s hrun
    have hinv : ReadInv False s := hrun.inv (fun hp => hp.elim) (readInv_new instant wall)
    exact ⟨hinv.bounded, hinv.justified⟩
  · intro s hrun
    have hinv : ReadInv True s := hrun.inv (fun _ _ _ h => h) (readInv_new instant wall)
    exact hinv.justified

/-! A call is held up between the answer of Meta and the section that records it. The deadline of the answer counts from
the end of the delay, and another call that has read the clock before finds the answer when it has long expired. -/

section Delay

def sampleGrant : DfsReadGrant :=
  ⟨⟨"n"⟩, ⟨"v"⟩, ⟨"l"⟩, "p", 1, 100000, 1,
    "dfs-read-v1:0000000000000000000000000000000000000000000000000000000000000000"⟩

def sampleOp : DfsChunkReadOp := ⟨0, ⟨"c"⟩, 0, 10, some sampleGrant, ⟨"d"⟩⟩

def sampleRequest : DfsReadRangesRequest := ⟨"r", "a", ⟨"v"⟩, ⟨"l"⟩, [sampleOp]⟩

def sampleValidation : DfsReadValidation := sampleOp.validation sampleGrant

def sampleKey : List UInt8 := ReadJson.identity.print (sampleGrant, ⟨"c"⟩, ⟨"d"⟩)

/-- Meta's answer at the wall time 1000. -/
def sampleAuthority : DfsAuthorizedRead := ⟨sampleValidation, [(0, 10)], 6000⟩

theorem readChecks_sample : readChecks "p" sampleRequest = .ok [(sampleKey, sampleValidation)] := by
  show [sampleOp].mapM (readCheck "p") = _
  rfl

variable {s₀ s : ReadAuthorizer} {i : Nat}

theorem ReadRun.mono (h : ReadRun allowed s₀ s) : ReadRun (fun _ _ => True) s₀ s := by
  induction h with
  | refl => exact .refl _
  | step run _ step ih => exact ih.step trivial step

/-- A call finds everything in the cache. -/
theorem ReadStep.hit (call : ReadCall) (hcall : s.calls i = some call) (hphase : call.phase = .prepared now checks)
    (hmissing : (s.cache.live s.instant now).missing checks = []) :
    ReadStep s (.lookup i)
      ({ s with cache := s.cache.live s.instant now }.goesTo i call (.granted s.instant s.wall none)) := by
  have hstep := ReadStep.lookup s i call now checks hcall hphase
  rwa [if_pos hmissing] at hstep

/-- A call arrives and reads the clock. -/
theorem ReadRun.prepares (hrun : ReadRun Prompt s₀ s) (hfresh : s.calls i = none)
    (hvalid : validateDfsReadRequest s.wall sampleRequest = .ok ()) :
    ReadRun Prompt s₀
      (s.goesTo i ⟨"p", sampleRequest, .admitted⟩ (.prepared s.wall [(sampleKey, sampleValidation)])) := by
  have harrived := hrun.step (by trivial) (.arrive s i "p" sampleRequest hfresh)
  have hadmitted := harrived.step (by trivial) (.validate _ i _ (ReadAuthorizer.goesTo_calls_self ..) rfl)
  have hwall : (s.goesTo i ⟨"p", sampleRequest, .arrived⟩ .arrived).wall = s.wall := rfl
  rw [hwall, hvalid, ReadAuthorizer.goesTo_goesTo] at hadmitted
  have hprepared := hadmitted.step (by trivial) (.prepare _ i _ (ReadAuthorizer.goesTo_calls_self ..) rfl)
  rw [readChecks_sample, ReadAuthorizer.goesTo_goesTo] at hprepared
  exact hprepared

/-- The first call, with the answer of Meta confirmed. -/
theorem first_call_confirmed : ∃ s, ReadRun Prompt (.new 0 1000) s ∧ s.instant = 0 ∧ s.cache = ∅ ∧
    s.calls 0 = some ⟨"p", sampleRequest, .confirmed 0 1000 [sampleValidation] 0 [sampleAuthority] 1000⟩ ∧
    s.calls 1 = none ∧ s.replies = [⟨0, "p", 0, sampleAuthority⟩] := by
  have hprepared := (ReadRun.refl (.new 0 1000)).prepares (i := 0) rfl rfl
  have hlooked :=
    hprepared.step (by rintro _ _ _ - - _ _ ⟨⟩) (.lookup _ 0 _ _ _ (ReadAuthorizer.goesTo_calls_self ..) rfl)
  have hasking := hlooked.step (by trivial)
    (.reply _ 0 _ 0 1000 [sampleValidation] (.ok [sampleAuthority]) (ReadAuthorizer.goesTo_calls_self ..) rfl)
  have hconfirmed := hasking.step (by trivial)
    (.confirm _ 0 _ 0 1000 [sampleValidation] 0 [sampleAuthority] (ReadAuthorizer.goesTo_calls_self ..) rfl)
  exact ⟨_, hconfirmed, rfl, rfl, rfl, rfl, rfl⟩

def insertionOrder : FirstKey where
  next := fun cache => cache.keys.head?
  next_mem := fun _ _ h => List.mem_of_mem_head? h
  next_none := fun _ h => List.head?_eq_none_iff.mp h

/-- The cache with the answer. -/
def recordedCache (deadline : Nat) : ReadCache := (∅ : ReadCache).insert sampleKey ⟨sampleAuthority, deadline⟩

theorem record_sample (instant : Nat) :
    (∅ : ReadCache).record insertionOrder instant 1000 [sampleAuthority] =
      (recordedCache (instant + 5000), .ok ()) := by
  rfl

/-- A call finds the answer while it is kept and has not expired. -/
theorem missing_recorded {deadline instant now} (hlive : instant < deadline ∧ now < 6000) :
    ((recordedCache deadline).live instant now).missing [(sampleKey, sampleValidation)] = [] := by
  have hlookup : ((recordedCache deadline).live instant now).lookup sampleKey = some ⟨sampleAuthority, deadline⟩ :=
    Pairs.lookup_retain.mpr ⟨AList.lookup_insert _, by simp [sampleAuthority, hlive]⟩
  have hcovers : ((recordedCache deadline).live instant now).covers (sampleKey, sampleValidation) = true := by
    simp only [ReadCache.covers, hlookup]
    decide
  simp [ReadCache.missing, hcovers]

/-- A second call, two seconds after the first one, finds the answer in the cache. -/
theorem read_cache_grants_what_meta_granted_at_once :
    ∃ s, ReadRun Prompt (.new 0 1000) s ∧ s.calls 0 = some ⟨"p", sampleRequest, .granted 0 1000 (some 1000)⟩ ∧
      s.calls 1 = some ⟨"p", sampleRequest, .granted 2000 3000 none⟩ ∧ s.cache.keys.length ≤ 1024 ∧
      Justified True s := by
  obtain ⟨s, hrun, hinstant, hcache, hcall, hfresh, -⟩ := first_call_confirmed
  have hprompt : Prompt s (.record 0 insertionOrder) := by
    intro call instant wall missing obtained authorized completedNow hcall' hphase
    rw [hcall] at hcall'
    cases hcall'
    cases hphase
    exact .inl hinstant
  have hrecorded := hrun.step hprompt
    (.record s 0 insertionOrder _ 0 1000 [sampleValidation] 0 [sampleAuthority] 1000 hcall rfl)
  have hlater := hrecorded.step (by trivial) (.tick _ 2000 3000 (show s.instant ≤ 2000 by omega))
  have hprepared := hlater.prepares (i := 1) hfresh rfl
  have hmissing : ((s.cache.record insertionOrder s.instant 1000 [sampleAuthority]).1.live 2000 3000).missing
      [(sampleKey, sampleValidation)] = [] := by
    rw [hcache, record_sample, hinstant]
    exact missing_recorded ⟨by decide, by decide⟩
  have hgranted := hprepared.step (by rintro _ _ _ ⟨⟩ ⟨⟩ _ _ - hlive; exact hlive)
    (.hit (i := 1) ⟨"p", sampleRequest, .prepared 3000 [(sampleKey, sampleValidation)]⟩ rfl rfl hmissing)
  refine ⟨_, hgranted, ?_, rfl, ?_, ?_⟩
  · rw [hinstant]
    rfl
  · exact ((read_cache_grants_what_meta_granted 0 1000).1 _ hgranted.mono).1
  · exact (read_cache_grants_what_meta_granted 0 1000).2 _ hgranted

/-- The second call reads the clock at 4 s and looks at the cache at 10 s, right after the first call has recorded the
    answer that it was given at the start and that has expired at 5 s. -/
theorem expired_answer_granted : ∃ s, ReadRun (fun _ _ => True) (.new 0 1000) s ∧
    s.calls 1 = some ⟨"p", sampleRequest, .granted 10000 11000 none⟩ ∧ ¬Justified True s := by
  obtain ⟨s, hrun, hinstant, hcache, hcall, hfresh, hreplies⟩ := first_call_confirmed
  have hlater := hrun.step (by trivial) (.tick s 4000 5000 (by omega))
  have hprepared := hlater.prepares (i := 1) hfresh rfl
  have hdelayed := (hprepared.step (by trivial) (.tick _ 10000 11000 (show 4000 ≤ 10000 by decide))).mono
  have hrecorded := hdelayed.step trivial
    (.record _ 0 insertionOrder _ 0 1000 [sampleValidation] 0 [sampleAuthority] 1000 hcall rfl)
  have hmissing : ((s.cache.record insertionOrder 10000 1000 [sampleAuthority]).1.live 10000 5000).missing
      [(sampleKey, sampleValidation)] = [] := by
    rw [hcache, record_sample]
    exact missing_recorded ⟨by decide, by decide⟩
  have hgranted := hrecorded.step trivial
    (.hit (i := 1) ⟨"p", sampleRequest, .prepared 5000 [(sampleKey, sampleValidation)]⟩ rfl rfl hmissing)
  refine ⟨_, hgranted, rfl, ?_⟩
  intro hjustified
  obtain ⟨grant, -, -, reply, hsupports, -, htime⟩ := hjustified 1 _ _ _ _ _ rfl sampleOp mem_cons_self
  have hgiven : reply ∈ s.replies := hsupports.given
  rw [hreplies, mem_singleton] at hgiven
  subst hgiven
  obtain ⟨-, hontime⟩ | ⟨time, hnone, -⟩ := htime
  · have hrecent : 10000 ≤ 0 + 5000 := (hontime trivial).1
    omega
  · cases hnone

end Delay

end Afs.Node
