import Afs.Lib.Runs
import Mathlib.Algebra.Ring.Nat
import Mathlib.Data.Finset.Basic

/-!
# `Node.OwnerFs.Sharing` — the barrier before a root is shared

While no peer uses a root, FUSE replies about its inodes have a lifetime, for which the kernel keeps names and
attributes. The first peer that `validate_peer` admits makes the root shared: replies have no lifetime from then on,
and before the peer is admitted the kernel drops every number below `next_fuse_ino`. Each critical section is a step,
so that the requests of all threads interleave. Which number an inode gets is left open. Number 1, the mount's own
root, has no lifetime and is left out.

`lookup`, `create` and `mknod` raise `next_fuse_ino` before they reply. `mkdir`, `symlink` and `link` do not: their own
replies have no lifetime, but that of a later `getattr` has one (`lent_after_admission`).
-/

namespace Afs.OwnerFs

open Runs Finset

/-- The requests that reply with an entry or with attributes. -/
inductive FuseRequest
  | lookup | create | mknod | mkdir | symlink | link | getattr | setattr

/-- The request calls `remember_fuse_inode` before it replies. -/
def FuseRequest.remembers : FuseRequest → Bool
  | .lookup | .create | .mknod => true
  | _ => false

/-- The reply has the lifetime of the cache policy. The lifetime of the others is `TTL`, which is zero. -/
def FuseRequest.followsPolicy : FuseRequest → Bool
  | .lookup | .create | .getattr => true
  | _ => false

/-- The holder of `share_lock` in the loop of `validate_peer`, which is at `ino`. -/
structure Share where
  root : String
  (ino nextFuseIno : Nat)

/-- `PrivateFuseCache` and those who use it. -/
structure Sharing where
  sharedRoots : Finset String
  notifier : Bool
  nextFuseIno : Nat
  nativeHomeEligible : Bool
  privateRootForInode : UInt64 → Option String
  share : Option Share
  /-- The numbers that `remember_fuse_inode` was called with. -/
  remembered : Finset Nat
  /-- The numbers that got a reply with a lifetime, for an inode of the root, and were not invalidated since. -/
  lent : Finset (Nat × String)
  /-- The roots that a peer was admitted to. -/
  admitted : Finset String

inductive SharingEvent
  | registerFuseNotifier
  /-- The local inodes or the active roots change. -/
  | setRoots (privateRootForInode : UInt64 → Option String)
  | rememberFuseInode (ino : Nat)
  | reply (request : FuseRequest) (ino : Nat) (inode : UInt64)
  /-- `validate_peer` up to the loop. -/
  | validatePeer (root : String)
  | invalInode (ok : Bool)

namespace Sharing

def new (nativeHomeEligible : Bool) : Sharing := ⟨∅, false, 4, nativeHomeEligible, fun _ => none, none, ∅, ∅, ∅⟩

section

variable (s : Sharing)

/-- The lifetime, in milliseconds, of the reply that is sent under the lock, and whether the root is private. -/
def withFuseCachePolicy (inode : UInt64) : Nat × Bool :=
  if s.nativeHomeEligible then (0, false)
  else
    let isPrivate := (s.privateRootForInode inode).any (· ∉ s.sharedRoots)
    (if isPrivate then 1000 else 0, isPrivate)

def lifetime (request : FuseRequest) (inode : UInt64) : Nat :=
  if request.followsPolicy then (s.withFuseCachePolicy inode).1 else 0

def reply (request : FuseRequest) (ino : Nat) (inode : UInt64) : Sharing :=
  match s.privateRootForInode inode with
  | some root => if s.lifetime request inode = 0 then s else { s with lent := insert (ino, root) s.lent }
  | none => s

def validatePeer (root : String) : Sharing :=
  if root ∈ s.sharedRoots then { s with admitted := insert root s.admitted }
  else if s.notifier then
    { s with sharedRoots := insert root s.sharedRoots, share := some ⟨root, 2, s.nextFuseIno⟩ }
  else { s with sharedRoots := insert root s.sharedRoots, admitted := insert root s.admitted }

/-- One turn of the loop of `validate_peer`, or its end. -/
def invalInode (ok : Bool) (share : Share) : Sharing :=
  if share.ino < share.nextFuseIno then
    if ok then
      { s with lent := s.lent.filter (·.1 ≠ share.ino), share := some { share with ino := share.ino + 1 } }
    else { s with sharedRoots := s.sharedRoots.erase share.root, share := none }
  else { s with admitted := insert share.root s.admitted, share := none }

def step : SharingEvent → Option Sharing
  | .registerFuseNotifier => some { s with notifier := true }
  | .setRoots privateRootForInode => some { s with privateRootForInode := privateRootForInode }
  | .rememberFuseInode ino => some { s with
      nextFuseIno := max s.nextFuseIno (min (ino + 1) (2 ^ 64 - 1))
      remembered := insert ino s.remembered }
  | .reply request ino inode =>
    if 2 ≤ ino ∧ (request.remembers → ino ∈ s.remembered) then some (s.reply request ino inode) else none
  | .validatePeer root => if s.share = none then some (s.validatePeer root) else none
  | .invalInode ok => s.share.map (s.invalInode ok)

/-- The condition on the steps: a `getattr` is about a number below `next_fuse_ino`, no inode has the last number of
    all, and the notifier is registered before a peer asks. -/
def Known : SharingEvent → Prop
  | .reply .getattr ino _ => ino < s.nextFuseIno
  | .rememberFuseInode ino => ino < 2 ^ 64 - 1
  | .validatePeer _ => s.notifier = true
  | _ => True

end

/-- What holds in every run of known steps. Of a shared root the kernel keeps only numbers that the barrier in
    progress is still to invalidate. -/
structure Inv (s : Sharing) : Prop where
  remembered : ∀ ino ∈ s.remembered, ino < s.nextFuseIno
  lent : ∀ p ∈ s.lent, 2 ≤ p.1 ∧ p.1 < s.nextFuseIno
  barrier : ∀ p ∈ s.lent, p.2 ∈ s.sharedRoots →
    ∃ share, s.share = some share ∧ share.root = p.2 ∧ share.ino ≤ p.1 ∧ p.1 < share.nextFuseIno
  share : ∀ share, s.share = some share → share.root ∈ s.sharedRoots ∧ share.root ∉ s.admitted
  admitted : s.admitted ⊆ s.sharedRoots

variable {s t : Sharing} {root : String} {inode : UInt64}

theorem lifetime_of_shared (hinode : s.privateRootForInode inode = some root) (hshared : root ∈ s.sharedRoots)
    (request : FuseRequest) : s.lifetime request inode = 0 := by
  simp [lifetime, withFuseCachePolicy, hinode, hshared]

/-- A reply lends its number only for a root that is not shared. -/
theorem reply_cases (s : Sharing) (request : FuseRequest) (ino : Nat) (inode : UInt64) :
    s.reply request ino inode = s ∨ request.followsPolicy = true ∧ ∃ root ∉ s.sharedRoots,
      s.reply request ino inode = { s with lent := insert (ino, root) s.lent } := by
  unfold reply
  split
  · next root hroot =>
    split
    · exact .inl rfl
    · next hlifetime =>
      refine .inr ⟨?_, root, fun hshared => hlifetime (lifetime_of_shared hroot hshared request), rfl⟩
      by_contra hpolicy
      exact hlifetime (if_neg hpolicy)
  · exact .inl rfl

theorem Inv.step (h : Inv s) {e} (hknown : s.Known e) (hstep : s.step e = some t) : Inv t := by
  cases e with
  | registerFuseNotifier | setRoots =>
    cases hstep
    exact ⟨h.remembered, h.lent, h.barrier, h.share, h.admitted⟩
  | rememberFuseInode ino =>
    cases hstep
    have hino : ino < 2 ^ 64 - 1 := hknown
    refine ⟨fun i hi => ?_, fun p hp => ⟨(h.lent p hp).1, (h.lent p hp).2.trans_le (le_max_left ..)⟩,
      h.barrier, h.share,
      h.admitted⟩
    rcases mem_insert.mp hi with rfl | hi
    · exact lt_max_of_lt_right (by omega)
    · exact lt_max_of_lt_left (h.remembered i hi)
  | reply request ino inode =>
    obtain ⟨⟨htwo, hremembers⟩, ⟨⟩⟩ := Option.ite_none_right_eq_some.mp hstep
    rcases reply_cases s request ino inode with hsame | ⟨hpolicy, root, hprivate, hlent⟩
    · rwa [hsame]
    · rw [hlent]
      have hlt : ino < s.nextFuseIno := by
        cases request with
        | lookup | create => exact h.remembered ino (hremembers rfl)
        | getattr => exact hknown
        | _ => cases hpolicy
      refine ⟨h.remembered, ?_, ?_, h.share, h.admitted⟩
      · exact forall_mem_insert .. |>.mpr ⟨⟨htwo, hlt⟩, h.lent⟩
      · exact forall_mem_insert .. |>.mpr ⟨fun hshared => absurd hshared hprivate, h.barrier⟩
  | validatePeer root =>
    obtain ⟨hfree, ⟨⟩⟩ := Option.ite_none_right_eq_some.mp hstep
    unfold Sharing.validatePeer
    split
    · next hshared => exact ⟨h.remembered, h.lent, h.barrier, by simp [hfree], insert_subset hshared h.admitted⟩
    · next hnew =>
      rw [if_pos (show s.notifier = true from hknown)]
      refine ⟨h.remembered, h.lent, fun p hp hshared => ?_, ?_, h.admitted.trans (subset_insert ..)⟩
      · rcases mem_insert.mp hshared with hroot | hshared
        · exact ⟨_, rfl, hroot.symm, h.lent p hp⟩
        · obtain ⟨share, hshare, -⟩ := h.barrier p hp hshared
          cases hfree.symm.trans hshare
      · rintro _ ⟨⟩
        exact ⟨mem_insert_self .., fun hadmitted => hnew (h.admitted hadmitted)⟩
  | invalInode ok =>
    obtain ⟨share, hshare, rfl⟩ := Option.map_eq_some_iff.mp hstep
    obtain ⟨hroot, hwaiting⟩ := h.share share hshare
    have hbarrier : ∀ p ∈ s.lent, p.2 ∈ s.sharedRoots →
        share.root = p.2 ∧ share.ino ≤ p.1 ∧ p.1 < share.nextFuseIno := by
      intro p hp hshared
      obtain ⟨_, hsame, hrest⟩ := h.barrier p hp hshared
      cases hshare.symm.trans hsame
      exact hrest
    unfold Sharing.invalInode
    split
    · split
      · refine ⟨h.remembered, fun p hp => h.lent p (mem_filter.mp hp).1, fun p hp hshared => ?_, ?_, h.admitted⟩
        · obtain ⟨hmem, hne⟩ := mem_filter.mp hp
          obtain ⟨hsame, hle, hlt⟩ := hbarrier p hmem hshared
          exact ⟨_, rfl, hsame, lt_of_le_of_ne hle (Ne.symm hne), hlt⟩
        · rintro _ ⟨⟩
          exact ⟨hroot, hwaiting⟩
      · refine ⟨h.remembered, h.lent, fun p hp hshared => ?_, nofun, fun other hother => ?_⟩
        · obtain ⟨hne, hshared⟩ := mem_erase.mp hshared
          exact absurd (hbarrier p hp hshared).1.symm hne
        · exact mem_erase.mpr ⟨fun hsame => hwaiting (hsame ▸ hother), h.admitted hother⟩
    · next hend =>
      refine ⟨h.remembered, h.lent, fun p hp hshared => ?_, nofun, insert_subset hroot h.admitted⟩
      obtain ⟨-, hle, hlt⟩ := hbarrier p hp hshared
      omega

/-- **The sharing barrier.** In every run of known steps, the replies about a root that a peer was admitted to have no
    lifetime, and the kernel keeps none of its numbers. -/
theorem shared_root_has_no_private_reply {nativeHomeEligible : Bool} (hrun : Run step Known (new nativeHomeEligible) s)
    (hroot : root ∈ s.admitted) :
    (∀ request inode, s.privateRootForInode inode = some root → s.lifetime request inode = 0) ∧
      ∀ ino, (ino, root) ∉ s.lent := by
  have h : Inv s := hrun.invariant (fun _ _ _ h => h.step) ⟨nofun, nofun, nofun, nofun, fun _ h => h⟩
  refine ⟨fun request inode hinode => lifetime_of_shared hinode (h.admitted hroot) request, fun ino hlent => ?_⟩
  obtain ⟨share, hshare, rfl, -⟩ := h.barrier _ hlent (h.admitted hroot)
  exact (h.share share hshare).2 hroot

theorem shared_root_has_no_private_reply_first_peer :
    ∃ s, Run step Known (new false) s ∧ "home" ∈ s.admitted ∧ s.lifetime .getattr 7 = 0 ∧ (2, "home") ∉ s.lent := by
  have hstart : Run step Known (new false) (new false) := .refl
  have hlent := hstart |>.tail .registerFuseNotifier trivial rfl |>.tail (.setRoots fun _ => some "home") trivial rfl
    |>.tail (.rememberFuseInode 2) (show 2 < 2 ^ 64 - 1 by decide) rfl |>.tail (.reply .lookup 2 7) trivial rfl
  have hrun := hlent |>.tail (.validatePeer "home") rfl rfl |>.tail (.invalInode true) trivial rfl
    |>.tail (.invalInode true) trivial rfl |>.tail (.invalInode true) trivial rfl
  obtain ⟨hreplies, hkept⟩ := shared_root_has_no_private_reply hrun (show "home" ∈ _ by decide)
  exact ⟨_, hrun, by decide, hreplies .getattr 7 rfl, hkept 2⟩

/-- **A number that the barrier does not know**: two directories are made, and the kernel asks for the attributes of the
    second one before a peer is admitted. -/
theorem lent_after_admission :
    ∃ s, execute step [.registerFuseNotifier, .setRoots fun _ => some "home", .rememberFuseInode 2, .reply .lookup 2 7,
      .reply .mkdir 3 8, .reply .mkdir 4 9, .reply .getattr 4 9, .validatePeer "home", .invalInode true,
        .invalInode true,
      .invalInode true] (new false) = some s ∧ "home" ∈ s.admitted ∧ (4, "home") ∈ s.lent :=
  ⟨_, rfl, by decide, by decide⟩

end Sharing

end Afs.OwnerFs
