import Afs.Node.Locks.Pins
import Mathlib.Data.Finset.Option
import Mathlib.Data.Finset.Sort

/-!
# `Node.Locks.Reap` — the locks of dead peers

`reap_expired_peer_lock_sessions` collects the sessions of the owners and waiters on record, asks Meta for the current
session of each peer and releases the ones that are over. A lock whose owner is not on record is never found, so the
reaper is as good as the records are (`Pinned`). A node is the list of the services of its inodes.
-/

namespace Afs.Locks

open List Finset

variable {lock : ActiveLock} {peer : String ×ₗ String} {services : List LockService} {a : Nat} {scope : String}

/-- `scoped_lock_process_session`: a scope is a node, a session and an ingress session with a NUL between them. -/
def scopedLockProcessSession (scope : String) : Option (String ×ₗ String) :=
  let outer (text : List Char) := text.takeWhile (· ≠ '\x00')
  match scope.toList.dropWhile (· ≠ '\x00') with
  | [] => none
  | _ :: inner =>
    match inner.dropWhile (· ≠ '\x00') with
    | [] => none
    | _ :: raw =>
      if outer scope.toList ≠ [] ∧ outer inner ≠ [] ∧ raw ≠ [] then
        some (toLex (String.ofList (outer scope.toList), String.ofList (outer inner)))
      else none

namespace LockAuthority

/-- The sessions of the owners and waiters on record. -/
def scopes (authority : LockAuthority) : Finset String :=
  authority.pinnedOwners.image (·.ingressSessionId) ∪ authority.waiters.image (·.ingressSessionId)

/-- What `release_scoped_lock_sessions` does to an authority. -/
def releaseScopes (scopes : Finset String) (authority : LockAuthority) : LockAuthority :=
  { authority with
    table := (scopes.sort (· ≤ ·)).foldl (fun table scope => releaseSession .default scope table) authority.table
    pinnedOwners := authority.pinnedOwners.filter fun owner => owner.ingressSessionId ∉ scopes
    waiters := authority.waiters.filter fun waiter => waiter.ingressSessionId ∉ scopes }

end LockAuthority

namespace LockService

variable {s t : LockService}

/-- `release_scoped_lock_sessions`. -/
def releaseScoped (scopes : Finset String) (s : LockService) : LockService :=
  let s := (scopes.sort (· ≤ ·)).foldl noteClosed s
  match s.installed with
  | none => s
  | some a => s.setAuthority a ((s.heap a).releaseScopes scopes)

/-- `reclaim_idle_lock_authorities`. -/
def reclaimIdle (s : LockService) : LockService :=
  match s.installed with
  | none => s
  | some a => if isIdle (s.heap a).table && s.unreferenced a then { s with installed := none } else s

/-- The sessions on record on a node. -/
def recordedScopes (services : List LockService) : Finset String :=
  services.foldr (fun s scopes => (s.installed.elim ∅ fun a => (s.heap a).scopes) ∪ scopes) ∅

/-- `collect_peer_lock_scopes`, in the order of the peers from the cursor on. -/
def collectPeerLockScopes (services : List LockService) (cursor : Nat) : List ((String ×ₗ String) × Finset String) :=
  let recorded := recordedScopes services
  let peers := Finset.eraseNone (recorded.image scopedLockProcessSession)
  ((peers.sort (· ≤ ·)).rotate (cursor % peers.card)).map fun peer =>
    (peer, recorded.filter fun scope => scopedLockProcessSession scope = some peer)

def lockSessionReapMaxOps : Nat := 64

/-- The loop of the reaper. `late` says whether the deadline has come; `current` is what Meta answers. -/
def reapLoop (current : String → Result (Option String)) (late : Nat → Bool) :
    Nat → List ((String ×ₗ String) × Finset String) → List LockService → List LockService
  | _, [], services => services
  | checked, (peer, scopes) :: rest, services =>
    if lockSessionReapMaxOps ≤ checked ∨ late checked = true then services
    else
      match current (ofLex peer).1 with
      | .ok session =>
        reapLoop current late (checked + 1) rest
          (if session ≠ some (ofLex peer).2 then services.map (releaseScoped scopes) else services)
      | .error _ => reapLoop current late (checked + 1) rest services

/-- `reap_expired_peer_lock_sessions`. -/
def reapExpiredPeerLockSessions (current : String → Result (Option String)) (late : Nat → Bool) (cursor : Nat)
    (services : List LockService) : List LockService :=
  let services := services.map reclaimIdle
  reapLoop current late 0 (collectPeerLockScopes services cursor) services

/-! ## What the reaper leaves -/

/-- What releasing scopes leaves of a table. -/
theorem mem_foldl_releaseSession {scopes : List String} {table}
    (hlock : lock ∈ (scopes.foldl (fun table scope => releaseSession .default scope table) table).locks) :
    lock ∈ table.locks ∧ (table.invalidated = false → lock.owner.ingressSessionId ∉ scopes) := by
  induction scopes generalizing table with
  | nil => exact ⟨hlock, fun _ => not_mem_nil⟩
  | cons scope rest ih =>
    obtain ⟨hmem, hrest⟩ := ih hlock
    refine ⟨(shrinks_releaseSession .default scope).locks.subset hmem, fun hvalid => ?_⟩
    simp only [releaseSession, hvalid, Bool.false_eq_true, if_false, mem_filter, bne_iff_ne] at hmem hrest
    exact fun hscope => (mem_cons.mp hscope).elim hmem.2 (hrest trivial)

theorem foldl_noteClosed (scopes : List String) (s : LockService) :
    (scopes.foldl noteClosed s).heap = s.heap ∧ (scopes.foldl noteClosed s).installed = s.installed := by
  induction scopes generalizing s with
  | nil => exact ⟨rfl, rfl⟩
  | cons scope rest ih =>
    obtain ⟨sessions, admission, hnote⟩ := sessions_noteClosed s scope
    rw [foldl_cons, (ih _).1, (ih _).2, hnote]
    exact ⟨rfl, rfl⟩

/-- Locks are only taken away, and none of the sessions `gone` is left in the installed table. -/
def Reaped (gone : Finset String) (s t : LockService) : Prop :=
  t.installed = s.installed ∧ ∀ a, (t.heap a).table.invalidated = (s.heap a).table.invalidated ∧
    ∀ lock ∈ (t.heap a).table.locks, lock ∈ (s.heap a).table.locks ∧
      (s.installed = some a → (s.heap a).table.invalidated = false → lock.owner.ingressSessionId ∉ gone)

theorem Reaped.refl (s : LockService) : Reaped ∅ s s :=
  ⟨rfl, fun _ => ⟨rfl, fun _ hlock => ⟨hlock, fun _ _ => notMem_empty _⟩⟩⟩

theorem Reaped.trans {gone gone' u} (h : Reaped gone s t) (h' : Reaped gone' t u) : Reaped (gone ∪ gone') s u := by
  refine ⟨h'.1.trans h.1, fun a => ⟨(h'.2 a).1.trans (h.2 a).1, fun lock hlock => ?_⟩⟩
  obtain ⟨hmid, hgone'⟩ := (h'.2 a).2 lock hlock
  obtain ⟨hbefore, hgone⟩ := (h.2 a).2 lock hmid
  refine ⟨hbefore, fun ha hvalid hmem => ?_⟩
  rcases mem_union.mp hmem with hmem | hmem
  · exact hgone ha hvalid hmem
  · exact hgone' (h.1.trans ha) ((h.2 a).1.trans hvalid) hmem

theorem invalidated_foldl_releaseSession (scopes : List String) (table : LockTableState) :
    (scopes.foldl (fun table scope => releaseSession .default scope table) table).invalidated = table.invalidated := by
  induction scopes generalizing table with
  | nil => rfl
  | cons scope rest ih =>
    rw [foldl_cons, ih]
    unfold releaseSession
    split <;> rfl

theorem reaped_releaseScoped (scopes : Finset String) (s : LockService) : Reaped scopes s (s.releaseScoped scopes) := by
  obtain ⟨hheap, hinstalled⟩ := foldl_noteClosed (scopes.sort (· ≤ ·)) s
  unfold releaseScoped
  simp only
  split
  · next hnone =>
    refine ⟨hinstalled, fun a => ?_⟩
    rw [hheap]
    exact ⟨rfl, fun lock hlock => ⟨hlock, fun ha => absurd (hinstalled.trans ha) (by rw [hnone]; exact nofun)⟩⟩
  · next b hb =>
    refine ⟨hinstalled, fun a => ?_⟩
    by_cases hab : a = b
    · subst hab
      rw [heap_setAuthority_self, hheap]
      refine ⟨invalidated_foldl_releaseSession _ _, fun lock hlock => ?_⟩
      obtain ⟨hmem, hgone⟩ := mem_foldl_releaseSession hlock
      exact ⟨hmem, fun _ hvalid => by simpa using hgone hvalid⟩
    · rw [heap_setAuthority_of_ne hab, hheap]
      refine ⟨rfl, fun lock hlock => ⟨hlock, fun ha => ?_⟩⟩
      exact absurd (Option.some.inj (ha.symm.trans (hinstalled.symm.trans hb))) hab

/-- A loop that is not cut short releases every session that is over. -/
theorem reaped_reapLoop {current late} (hlate : ∀ checked, late checked = false) {session}
    (hcurrent : current (ofLex peer).1 = .ok session) (hover : session ≠ some (ofLex peer).2)
    (entries : List ((String ×ₗ String) × Finset String)) (checked : Nat) (services : List LockService)
    (hchecked : checked + entries.length ≤ lockSessionReapMaxOps)
    (ht : t ∈ reapLoop current late checked entries services) :
    ∃ s ∈ services, ∃ gone, Reaped gone s t ∧ ∀ scopes, (peer, scopes) ∈ entries → scopes ⊆ gone := by
  induction entries generalizing checked services with
  | nil => exact ⟨t, ht, ∅, .refl t, fun _ hmem => absurd hmem not_mem_nil⟩
  | cons entry rest ih =>
    rw [length_cons] at hchecked
    have hroom : ¬(lockSessionReapMaxOps ≤ checked ∨ late checked = true) := by
      simp only [hlate, Bool.false_eq_true, or_false]
      omega
    rw [reapLoop, if_neg hroom] at ht
    -- an entry that is skipped is not the peer's
    have hskip : entry.1 ≠ peer → t ∈ reapLoop current late (checked + 1) rest services →
        ∃ s ∈ services, ∃ gone, Reaped gone s t ∧ ∀ scopes, (peer, scopes) ∈ entry :: rest → scopes ⊆ gone := by
      intro hne ht
      obtain ⟨s, hs, gone, hreaped, hgone⟩ := ih _ _ (by omega) ht
      refine ⟨s, hs, gone, hreaped, fun scopes hmem => hgone scopes ((mem_cons.mp hmem).resolve_left ?_)⟩
      rintro rfl
      exact hne rfl
    split at ht
    · next answer hanswer =>
      split at ht
      · obtain ⟨mid, hmid, gone, hreaped, hgone⟩ := ih _ _ (by omega) ht
        obtain ⟨s, hs, rfl⟩ := mem_map.mp hmid
        refine ⟨s, hs, _, (reaped_releaseScoped entry.2 s).trans hreaped, fun scopes hmem => ?_⟩
        rcases mem_cons.mp hmem with rfl | hmem
        · exact subset_union_left
        · exact (hgone scopes hmem).trans subset_union_right
      · next hlive =>
        refine hskip (fun hpeer => ?_) ht
        rw [hpeer, hcurrent] at hanswer
        cases hanswer
        rw [hpeer] at hlive
        exact hlive hover
    · next hanswer =>
      refine hskip (fun hpeer => ?_) ht
      rw [hpeer, hcurrent] at hanswer
      cases hanswer

theorem mem_recordedScopes (hs : s ∈ services) (ha : s.installed = some a) (hscope : scope ∈ (s.heap a).scopes) :
    scope ∈ recordedScopes services := by
  induction services with
  | nil => cases hs
  | cons other rest ih =>
    rw [recordedScopes, foldr_cons, mem_union]
    rcases mem_cons.mp hs with rfl | hs
    · exact .inl (by rwa [ha])
    · exact .inr (ih hs)

theorem length_collectPeerLockScopes (services : List LockService) (cursor : Nat) :
    (collectPeerLockScopes services cursor).length ≤ (recordedScopes services).card := by
  unfold collectPeerLockScopes
  rw [length_map, length_rotate, length_sort]
  exact (card_eraseNone_le _).trans card_image_le

/-- No lock operation is in progress. -/
structure Quiet (s : LockService) : Prop where
  tasks : s.tasks = ∅
  releases : s.releases = ∅
  invalidating : s.invalidating = ∅

/-- The owners of locks and the waiters of an authority that has not ended are on its record. -/
def OnRecord (s : LockService) : Prop :=
  ∀ a, (s.heap a).lastError = none →
    (∀ lock ∈ (s.heap a).table.locks, lock.owner ∈ (s.heap a).pinnedOwners) ∧
      ∀ waiterId waiting, (s.heap a).table.waiters.lookup waiterId = some waiting → waiterId ∈ (s.heap a).waiters

theorem Pinned.onRecord (h : Pinned s) (hsound : Sound s) (hquiet : s.Quiet) : s.OnRecord := by
  have hnone : ∀ n task, s.tasks.lookup n ≠ some task := by
    rw [hquiet.tasks]
    exact nofun
  refine fun a herror =>
    ⟨fun lock hlock => (h.covered a herror lock hlock).resolve_right ?_, fun waiterId waiting hwaiting => ?_⟩
  · rintro ⟨n, task, htask, -⟩
    exact hnone n task htask
  · obtain ⟨n, request, ⟨task, htask, -⟩, -⟩ := hsound.waiters a waiterId waiting hwaiting
    exact absurd htask (hnone n task)

/-- A lock of a quiet service is in the table of the installed authority, and its session on record. -/
theorem OnRecord.installed (h : s.OnRecord) (hsound : Sound s) (hquiet : s.Quiet)
    (hlock : lock ∈ (s.heap a).table.locks) : s.installed = some a ∧ (s.heap a).table.invalidated = false ∧
      lock.owner.ingressSessionId ∈ (s.heap a).scopes := by
  have hvalid : (s.heap a).table.invalidated = false := by
    refine Bool.eq_false_iff.mpr fun hinvalid => ?_
    rw [hsound.invalid a hinvalid] at hlock
    cases hlock
  have herror : (s.heap a).lastError = none := by
    refine Option.not_isSome_iff_eq_none.mp fun hsome => ?_
    rcases hsound.terminal a hsome with hinvalid | hmem
    · rw [hvalid] at hinvalid
      cases hinvalid
    · rw [hquiet.invalidating] at hmem
      exact notMem_empty a hmem
  refine ⟨?_, hvalid, mem_union_left _ (mem_image_of_mem _ ((h a herror).1 lock hlock))⟩
  by_contra ha
  rw [(hsound.orphan a ha).1] at hlock
  cases hlock

theorem heap_reclaimIdle (s : LockService) : s.reclaimIdle.heap = s.heap := by
  unfold reclaimIdle
  split
  · rfl
  · split <;> rfl

theorem installed_reclaimIdle (ha : s.installed = some a) (hlock : lock ∈ (s.heap a).table.locks) :
    s.reclaimIdle.installed = some a := by
  have hbusy : isIdle (s.heap a).table = false := by
    refine Bool.eq_false_iff.mpr fun hidle => ?_
    rw [locks_of_isIdle hidle] at hlock
    cases hlock
  simp [reclaimIdle, ha, hbusy]

/-- **The locks of a dead peer can be reaped**: if every owner was unpinned only when it had no activity left, the
    owners of locks are on record whenever no lock operation is in progress, and a run of the reaper that is not cut
    short leaves no lock of a peer whose session Meta reports as over. -/
theorem peer_locks_reapable (services : List LockService)
    (hrun : ∀ s ∈ services, ∃ lease, Runs.Run step UnpinsInactive (.new lease) s) (hquiet : ∀ s ∈ services, s.Quiet) :
    (∀ s ∈ services, s.OnRecord) ∧
      ∀ current late cursor peer session, (∀ checked, late checked = false) →
        (collectPeerLockScopes (services.map reclaimIdle) cursor).length ≤ lockSessionReapMaxOps →
        current (ofLex peer).1 = .ok session → session ≠ some (ofLex peer).2 →
        ∀ t ∈ reapExpiredPeerLockSessions current late cursor services, ∀ a, ∀ lock ∈ (t.heap a).table.locks,
          scopedLockProcessSession lock.owner.ingressSessionId ≠ some peer := by
  have hinv : ∀ s ∈ services, Sound s ∧ Pinned s := by
    intro s hs
    obtain ⟨lease, hrun⟩ := hrun s hs
    exact sound_pinned_of_run hrun
  have hrecord : ∀ s ∈ services, s.OnRecord := fun s hs => (hinv s hs).2.onRecord (hinv s hs).1 (hquiet s hs)
  refine ⟨hrecord, ?_⟩
  intro current late cursor peer session hlate hops hcurrent hover t ht a lock hlock hpeer
  obtain ⟨mid, hmid, gone, hreaped, hgone⟩ := reaped_reapLoop hlate hcurrent hover _ 0 _ (by omega) ht
  obtain ⟨s, hs, rfl⟩ := mem_map.mp hmid
  obtain ⟨hbefore, hleft⟩ := (hreaped.2 a).2 lock hlock
  rw [heap_reclaimIdle] at hbefore hleft
  obtain ⟨hinstalled, hvalid, hscope⟩ := (hrecord s hs).installed (hinv s hs).1 (hquiet s hs) hbefore
  have hkept := installed_reclaimIdle hinstalled hbefore
  have hrecorded := mem_recordedScopes hmid hkept (by rwa [heap_reclaimIdle])
  -- the sessions on record are collected under their peers
  refine hleft hkept hvalid (hgone _ (mem_map.mpr ⟨peer, ?_, rfl⟩) (mem_filter.mpr ⟨hrecorded, hpeer⟩))
  rw [mem_rotate, mem_sort, mem_eraseNone, ← hpeer]
  exact mem_image_of_mem _ hrecorded

/-- A lease of the node. -/
def fileLease : WriteLease := ⟨⟨"file"⟩, "node", "session", 1, 100⟩

/-- A request of a peer for the first ten bytes. -/
def peerRequest (kind : FileLockKind) (lockType : FileLockType) : LockRequest :=
  ⟨kind, ⟨"peer\x00old\x00mount", 1⟩, 1, ⟨0, 9⟩, lockType⟩

theorem peer_locks_reapable_of_one :
    ∃ s, Runs.execute step (locking 0 (peerRequest .posix .write) fileLease 0) (.new fileLease) = some s ∧
    (s.heap 0).table.locks ≠ [] ∧ s.OnRecord ∧
    ∀ t ∈ reapExpiredPeerLockSessions (fun _ => .ok none) (fun _ => false) 0 [s], ∀ a, ∀ lock ∈ (t.heap a).table.locks,
      scopedLockProcessSession lock.owner.ingressSessionId ≠ some (toLex ("peer", "old")) := by
  refine ⟨_, rfl, by decide, ?_⟩
  have hrun := Runs.run_of_execute UnpinsInactive (by simp [locking, applying, UnpinsInactive])
    (show Runs.execute step (locking 0 (peerRequest .posix .write) fileLease 0) (.new fileLease) = some _ from rfl)
  obtain ⟨hrecord, hreaped⟩ := peer_locks_reapable [_] (by simpa using ⟨fileLease, hrun⟩)
    (by simpa using ⟨rfl, rfl, rfl⟩)
  exact ⟨hrecord _ (by simp),
    hreaped _ _ 0 _ none (fun _ => rfl) ((length_collectPeerLockScopes _ 0).trans (by decide)) rfl nofun⟩

/-- The owner has locks of both kinds and unlocks one: it is unpinned, and the reaper does not find the other. -/
def unlockingOne : List Event :=
  locking 0 (peerRequest .posix .write) fileLease 0 ++ locking 1 (peerRequest .flock .write) fileLease 0 ++
    applying 2 (peerRequest .flock .unlock) fileLease 0 ++
    [.checkActivity 2 ⟨.set (peerRequest .flock .unlock) none, true, .applied 0⟩ 0,
      .unpin 2 ⟨.set (peerRequest .flock .unlock) none, true, .inactive 0⟩ 0]

theorem unpinned_owner_keeps_lock :
    ∃ s, Runs.execute step unlockingOne (.new fileLease) = some s ∧ s.Quiet ∧ ¬s.OnRecord ∧
    ∃ t ∈ reapExpiredPeerLockSessions (fun _ => .ok none) (fun _ => false) 0 [s], ∃ lock ∈ (t.heap 0).table.locks,
      scopedLockProcessSession lock.owner.ingressSessionId = some (toLex ("peer", "old")) := by
  refine ⟨_, rfl, ⟨rfl, rfl, rfl⟩, fun hrecord => ?_, ?_⟩
  · exact absurd ((hrecord 0 rfl).1 _ mem_cons_self) (by decide)
  · have hnone : ∀ {s : LockService}, (recordedScopes [s.reclaimIdle]).card = 0 →
        s.reclaimIdle ∈ reapExpiredPeerLockSessions (fun _ => .ok none) (fun _ => false) 0 [s] := by
      intro s hcard
      have hlength := length_collectPeerLockScopes [s.reclaimIdle] 0
      rw [hcard, Nat.le_zero, length_eq_zero_iff] at hlength
      show s.reclaimIdle ∈ reapLoop _ _ 0 (collectPeerLockScopes [s.reclaimIdle] 0) [s.reclaimIdle]
      rw [hlength]
      exact mem_cons_self
    refine ⟨_, hnone (by decide), ?_⟩
    rw [heap_reclaimIdle]
    exact ⟨⟨.posix, ⟨"peer\x00old\x00mount", 1⟩, 1, ⟨0, 9⟩, .write, 0⟩, mem_cons_self, by decide⟩

end LockService

end Afs.Locks
