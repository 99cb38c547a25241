import Afs.Node.Locks.Service

/-!
# `Node.Locks.ServiceRuns` — what every run of a lock service keeps

`Sound` ties the threads, the tables and the installed authority together: a table waits only for threads that wait in
it, an authority that has ended has no locks or is about to lose them, and one that is not installed has none and gets
none. Every step keeps it, whatever the threads do.
-/

namespace Afs.Locks.LockService

open LockAuthority

variable {s : LockService} {a n : Nat} {task : LockTask}

variable {other : LockTask} {t : LockService} {x : LockAuthority} {table : LockTableState} {request : LockRequest}
  {phase : TaskPhase}

@[simp] theorem heap_setAuthority_self (s : LockService) (a : Nat) (x : LockAuthority) :
    (s.setAuthority a x).heap a = x := Function.update_self ..

theorem heap_setAuthority_of_ne {b} (h : b ≠ a) (x : LockAuthority) : (s.setAuthority a x).heap b = s.heap b :=
  Function.update_of_ne h ..

theorem lookup_setTask {m} :
    (s.setTask n task).tasks.lookup m = some other ↔ m = n ∧ other = task ∨ m ≠ n ∧ s.tasks.lookup m = some other := by
  unfold setTask
  by_cases hm : m = n
  · subst hm
    simp [AList.lookup_insert, eq_comm]
  · simp [AList.lookup_insert_ne hm, hm]

theorem lookup_endTask {m} : (s.endTask n).tasks.lookup m = some other ↔ m ≠ n ∧ s.tasks.lookup m = some other := by
  unfold endTask
  by_cases hm : m = n
  · subst hm
    simp
  · simp [AList.lookup_erase_ne hm, hm]

/-- The thread waits in the table of an authority, under a waiter id. -/
def Waits (s : LockService) (n a : Nat) (request : LockRequest) (waiterId : LockWaiterId) : Prop :=
  ∃ task, s.tasks.lookup n = some task ∧ task.phase = .waiting a ∧ task.action = .set request (some waiterId)

/-- A thread has the authority. -/
def Referenced (s : LockService) (a : Nat) : Prop :=
  ∃ n task, s.tasks.lookup n = some task ∧ task.phase.authority = some a

/-- **What holds in every run.** -/
structure Sound (s : LockService) : Prop where
  tidy : ∀ a, LocksTidy (s.heap a).table.locks
  waiting : ∀ n a request waiterId, s.Waits n a request waiterId → request.range.isValid = true
  waiters : ∀ a waiterId waiting, (s.heap a).table.waiters.lookup waiterId = some waiting →
    ∃ n request, s.Waits n a request waiterId ∧ request.owner = waiting.owner
  /-- An authority that has ended is invalidated, or about to be. -/
  ended : ∀ a ∈ s.invalidating, (s.heap a).lastError.isSome
  terminal : ∀ a, (s.heap a).lastError.isSome → (s.heap a).table.invalidated = true ∨ a ∈ s.invalidating
  invalid : ∀ a, (s.heap a).table.invalidated = true → (s.heap a).table.locks = []
  /-- An authority that is not installed has no locks, and if a thread has it, it is invalidated. -/
  orphan : ∀ a, s.installed ≠ some a →
    (s.heap a).table.locks = [] ∧ (s.Referenced a → (s.heap a).table.invalidated = true)
  installed : ∀ a, s.installed = some a → a < s.next
  referenced : ∀ a, s.Referenced a → a < s.next
  invalidating : ∀ a ∈ s.invalidating, a < s.next

theorem Sound.new (lease : WriteLease) : Sound (.new lease) where
  tidy := fun _ => .nil
  waiting := by
    rintro n a request waiterId ⟨task, htask, -⟩
    cases htask
  waiters := nofun
  ended := nofun
  terminal := nofun
  invalid := nofun
  orphan := by
    refine fun a _ => ⟨rfl, ?_⟩
    rintro ⟨n, task, htask, -⟩
    cases htask
  installed := nofun
  referenced := by
    rintro a ⟨n, task, htask, -⟩
    cases htask
  invalidating := nofun

/-! ## Changes of authorities and threads -/

/-- What a step may make of an authority. -/
structure Keeps (s : LockService) (a : Nat) (x : LockAuthority) : Prop where
  tidy : LocksTidy x.table.locks
  error : (s.heap a).lastError.isSome → x.lastError.isSome
  terminal : x.lastError.isSome → x.table.invalidated = true ∨ a ∈ s.invalidating
  invalidated : (s.heap a).table.invalidated = true → x.table.invalidated = true
  invalid : x.table.invalidated = true → x.table.locks = []
  orphan : s.installed ≠ some a → x.table.locks = []

theorem Sound.keeps (h : Sound s) (a : Nat) : Keeps s a (s.heap a) :=
  ⟨h.tidy a, id, h.terminal a, id, h.invalid a, fun ha => (h.orphan a ha).1⟩

/-- The same authority is installed, and the authorities are kept. -/
theorem Sound.of_keeps (h : Sound s) (hheap : ∀ b, Keeps s b (t.heap b)) (hnext : t.next = s.next)
    (hinstalled : t.installed = s.installed) (hinvalidating : t.invalidating = s.invalidating)
    (hreferenced : ∀ b, t.Referenced b → s.installed = some b ∨ s.Referenced b)
    (hwaiting : ∀ n a request waiterId, t.Waits n a request waiterId → request.range.isValid = true)
    (hwaiters : ∀ a waiterId waiting, (t.heap a).table.waiters.lookup waiterId = some waiting →
      ∃ n request, t.Waits n a request waiterId ∧ request.owner = waiting.owner) : Sound t where
  tidy := fun b => (hheap b).tidy
  waiting := hwaiting
  waiters := hwaiters
  ended := fun b hb => (hheap b).error (h.ended b (hinvalidating ▸ hb))
  terminal := fun b hb => hinvalidating.symm ▸ (hheap b).terminal hb
  invalid := fun b hb => (hheap b).invalid hb
  orphan := by
    intro b hb
    rw [hinstalled] at hb
    refine ⟨(hheap b).orphan hb, fun href => (hheap b).invalidated ?_⟩
    exact (h.orphan b hb).2 ((hreferenced b href).resolve_left hb)
  installed := fun b hb => hnext.symm ▸ h.installed b (hinstalled ▸ hb)
  referenced := fun b hb => hnext.symm ▸ (hreferenced b hb).elim (h.installed b) (h.referenced b)
  invalidating := fun b hb => hnext.symm ▸ h.invalidating b (hinvalidating ▸ hb)

theorem Sound.setAuthority (h : Sound s) (hkeeps : Keeps s a x)
    (hwaiters : ∀ waiterId waiting, x.table.waiters.lookup waiterId = some waiting →
      (s.heap a).table.waiters.lookup waiterId = some waiting) : Sound (s.setAuthority a x) := by
  refine h.of_keeps (fun b => ?_) rfl rfl rfl (fun _ => .inr) h.waiting ?_
  · by_cases hb : b = a
    · rw [hb, heap_setAuthority_self]
      exact hkeeps
    · rw [heap_setAuthority_of_ne hb]
      exact h.keeps b
  · intro b waiterId waiting hwaiting
    by_cases hb : b = a
    · rw [hb, heap_setAuthority_self] at hwaiting
      exact hb ▸ h.waiters a waiterId waiting (hwaiters waiterId waiting hwaiting)
    · rw [heap_setAuthority_of_ne hb] at hwaiting
      exact h.waiters b waiterId waiting hwaiting

/-- The records of an authority change. -/
theorem Sound.setRecords (h : Sound s) (a : Nat) (htable : x.table = (s.heap a).table)
    (herror : x.lastError = (s.heap a).lastError) : Sound (s.setAuthority a x) := by
  refine h.setAuthority ⟨?_, ?_, ?_, ?_, ?_, ?_⟩ ?_
  · rw [htable]
    exact h.tidy a
  · rw [herror]
    exact id
  · rw [herror, htable]
    exact h.terminal a
  · rw [htable]
    exact id
  · rw [htable]
    exact h.invalid a
  · rw [htable]
    exact fun ha => (h.orphan a ha).1
  · rw [htable]
    exact fun _ _ hw => hw

/-- A call takes something away from a table. -/
theorem Sound.shrinks (h : Sound s) (a : Nat) (hshrinks : Shrinks (s.heap a).table table) :
    Sound (s.setTable a table) := by
  have hnone : (s.heap a).table.locks = [] → table.locks = [] := by
    intro hnone
    have hlocks := hshrinks.locks
    rw [hnone] at hlocks
    exact List.sublist_nil.mp hlocks
  refine h.setAuthority ⟨(h.tidy a).sublist hshrinks.locks, id, ?_, hshrinks.invalidated, ?_, ?_⟩ hshrinks.waiters
  · exact fun herror => (h.terminal a herror).imp_left hshrinks.invalidated
  · exact fun hinvalidated => (hshrinks.valid hinvalidated).elim (fun hbefore => hnone (h.invalid a hbefore)) id
  · exact fun ha => hnone (h.orphan a ha).1

/-- A thread that does not wait goes on, with an authority that is installed or one that it has already. -/
structure Moves (s : LockService) (n : Nat) (task : LockTask) : Prop where
  before : ∀ a request waiterId, ¬s.Waits n a request waiterId
  after : ∀ a, task.phase ≠ .waiting a
  authority : ∀ a, task.phase.authority = some a → s.installed = some a ∨ s.Referenced a

/-- The authorities stay, and the same threads wait. -/
theorem Sound.of_waits (h : Sound s) (hheap : t.heap = s.heap) (hnext : t.next = s.next)
    (hinstalled : t.installed = s.installed) (hinvalidating : t.invalidating = s.invalidating)
    (hreferenced : ∀ b, t.Referenced b → s.installed = some b ∨ s.Referenced b)
    (hwaits : ∀ n a request waiterId, t.Waits n a request waiterId ↔ s.Waits n a request waiterId) : Sound t := by
  refine h.of_keeps (fun b => hheap ▸ h.keeps b) hnext hinstalled hinvalidating hreferenced ?_ ?_
  · exact fun n a request waiterId hn => h.waiting n a request waiterId ((hwaits ..).mp hn)
  · intro b w waiting hw
    obtain ⟨n, request, hn, howner⟩ := h.waiters b w waiting (hheap ▸ hw)
    exact ⟨n, request, (hwaits ..).mpr hn, howner⟩

theorem Sound.setTask (h : Sound s) (hmoves : Moves s n task) : Sound (s.setTask n task) := by
  refine h.of_waits rfl rfl rfl rfl ?_ fun m a request waiterId => ⟨?_, ?_⟩
  · rintro a ⟨m, other, hother, hphase⟩
    obtain ⟨-, rfl⟩ | ⟨-, hother⟩ := lookup_setTask.mp hother
    · exact hmoves.authority a hphase
    · exact .inr ⟨m, other, hother, hphase⟩
  · rintro ⟨other, hother, hphase, haction⟩
    obtain ⟨-, rfl⟩ | ⟨-, hother⟩ := lookup_setTask.mp hother
    · exact absurd hphase (hmoves.after a)
    · exact ⟨other, hother, hphase, haction⟩
  · rintro ⟨other, hother, hwaits⟩
    refine ⟨other, lookup_setTask.mpr (.inr ⟨?_, hother⟩), hwaits⟩
    rintro rfl
    exact hmoves.before a request waiterId ⟨other, hother, hwaits⟩

/-- A thread that does not wait ends. -/
theorem Sound.endTask (h : Sound s) (hbefore : ∀ a request waiterId, ¬s.Waits n a request waiterId) :
    Sound (s.endTask n) := by
  refine h.of_waits rfl rfl rfl rfl ?_ fun m a request waiterId => ⟨?_, ?_⟩
  · rintro a ⟨m, other, hother, hphase⟩
    exact .inr ⟨m, other, (lookup_endTask.mp hother).2, hphase⟩
  · rintro ⟨other, hother, hwaits⟩
    exact ⟨other, (lookup_endTask.mp hother).2, hwaits⟩
  · rintro ⟨other, hother, hwaits⟩
    refine ⟨other, lookup_endTask.mpr ⟨?_, hother⟩, hwaits⟩
    rintro rfl
    exact hbefore a request waiterId ⟨other, hother, hwaits⟩

/-- A thread that has an authority which is not invalidated has the installed one. -/
theorem Sound.installed_of_referenced (h : Sound s) (href : s.Referenced a)
    (hvalid : (s.heap a).table.invalidated = false) : s.installed = some a := by
  by_contra ha
  rw [(h.orphan a ha).2 href] at hvalid
  cases hvalid

/-- What a request that is applied makes of the authority. -/
theorem Sound.keeps_applied (h : Sound s) (href : s.Referenced a)
    (happlied : Applied .default request (s.heap a).table table)
    (hinvalidated : table.invalidated = (s.heap a).table.invalidated) : Keeps s a ((s.heap a).withTable table) where
  tidy := happlied.tidy (h.tidy a)
  error := id
  terminal := fun herror => (h.terminal a herror).imp_left hinvalidated.trans
  invalidated := hinvalidated.trans
  invalid := by
    intro hinvalid
    have hinvalid := hinvalidated.symm.trans hinvalid
    rw [happlied.valid] at hinvalid
    cases hinvalid
  orphan := fun ha => absurd (h.installed_of_referenced href happlied.valid) ha

theorem Sound.applied (h : Sound s) (href : s.Referenced a) (happlied : Applied .default request (s.heap a).table table)
    (hwaiters : table.waiters = (s.heap a).table.waiters)
    (hinvalidated : table.invalidated = (s.heap a).table.invalidated) : Sound (s.setTable a table) := by
  refine h.setAuthority (h.keeps_applied href happlied hinvalidated) fun waiterId waiting hw => ?_
  have hw : table.waiters.lookup waiterId = some waiting := hw
  rwa [hwaiters] at hw

/-- A pass of a blocking request. -/
theorem Sound.afterPass (h : Sound s) {waiterId} (registered : Bool) {pass}
    (htask : s.tasks.lookup n = some task) (haction : task.action = .set request (some waiterId))
    (hphase : task.phase = if registered then .waiting a else .registered a)
    (hspec : PassSpec .default request waiterId registered (s.heap a).table pass) :
    Sound (s.afterPass n task a pass) := by
  have hauthority : task.phase.authority = some a := by
    rw [hphase]
    split <;> rfl
  have href : s.Referenced a := ⟨n, task, htask, hauthority⟩
  have hkeeps : Keeps s a ((s.heap a).withTable pass.2) := by
    by_cases hok : pass.1 = .done (.ok ())
    · exact h.keeps_applied href (hspec.ok hok) hspec.invalidated
    · have hlocks := hspec.other hok
      refine ⟨hlocks ▸ h.tidy a, id, ?_, hspec.invalidated.trans, ?_, fun ha => hlocks.trans (h.orphan a ha).1⟩
      · exact fun herror => (h.terminal a herror).imp_left hspec.invalidated.trans
      · exact fun hinvalid => hlocks.trans (h.invalid a (hspec.invalidated.symm.trans hinvalid))
  -- the thread waits before the pass with its own waiter id only
  have hown : ∀ b r w, s.Waits n b r w → b = a ∧ r = request ∧ w = waiterId ∧ registered = true := by
    rintro b r w ⟨other, hother, hwaiting, hset⟩
    rw [htask] at hother
    cases hother
    rw [haction] at hset
    cases hset
    rw [hphase] at hwaiting
    split at hwaiting
    · next hregistered =>
      cases hwaiting
      exact ⟨rfl, rfl, rfl, hregistered⟩
    · cases hwaiting
  obtain ⟨phase, hafter, hnext, hwait⟩ :
    ∃ phase, s.afterPass n task a pass = (s.setTable a pass.2).setTask n (task.moveTo phase) ∧
      phase.authority = some a ∧ (pass.1 = .wait ∧ phase = .waiting a ∨ pass.1 ≠ .wait ∧ ∀ b, phase ≠ .waiting b) := by
    unfold LockService.afterPass
    split
    · next result hdone => exact ⟨_, rfl, rfl, .inr ⟨by rw [hdone]; exact nofun, nofun⟩⟩
    · next hwait => exact ⟨_, rfl, rfl, .inl ⟨hwait, rfl⟩⟩
  rw [hafter]
  have hother : ∀ m b r w, m ≠ n →
    (((s.setTable a pass.2).setTask n (task.moveTo phase)).Waits m b r w ↔ s.Waits m b r w) := by
    intro m b r w hm
    constructor
    · rintro ⟨other, hother, hrest⟩
      exact ⟨other, ((lookup_setTask.mp hother).resolve_left fun heq => hm heq.1).2, hrest⟩
    · rintro ⟨other, hother, hrest⟩
      exact ⟨other, lookup_setTask.mpr (.inr ⟨hm, hother⟩), hrest⟩
  refine h.of_keeps (fun b => ?_) rfl rfl rfl ?_ ?_ ?_
  · by_cases hb : b = a
    · subst hb
      exact (heap_setAuthority_self s b _).symm ▸ hkeeps
    · exact (heap_setAuthority_of_ne hb _).symm ▸ h.keeps b
  · rintro b ⟨m, other, hm, hb⟩
    obtain ⟨-, rfl⟩ | ⟨-, hm⟩ := lookup_setTask.mp hm
    · exact .inr (Option.some.inj (hnext.symm.trans hb) ▸ href)
    · exact .inr ⟨m, other, hm, hb⟩
  · intro m b r w hm
    by_cases hmn : m = n
    · obtain ⟨other, hother, hwaiting, hset⟩ := hm
      obtain ⟨-, rfl⟩ | ⟨hne, -⟩ := lookup_setTask.mp hother
      · have hset : task.action = .set r (some w) := hset
        rw [haction] at hset
        cases hset
        rcases hwait with ⟨hwait, -⟩ | ⟨-, hnot⟩
        · exact (hspec.wait hwait).1
        · exact absurd hwaiting (hnot b)
      · exact absurd hmn hne
    · exact h.waiting m b r w ((hother m b r w hmn).mp hm)
  · intro b w waiting hw
    by_cases hb : b = a
    · subst hb
      have hleft : pass.2.waiters.lookup w = some waiting := by
        rwa [show ((s.setTable b pass.2).setTask n (task.moveTo phase)).heap b = _ from heap_setAuthority_self ..] at hw
      have hwaiters := hspec.waiters
      rcases hwait with ⟨hwait, rfl⟩ | ⟨hdone, -⟩
      · rw [PassWaiters, if_pos hwait] at hwaiters
        have hself : ((s.setTable b pass.2).setTask n (task.moveTo (.waiting b))).Waits n b request waiterId :=
          ⟨_, lookup_setTask.mpr (.inl ⟨rfl, rfl⟩), rfl, haction⟩
        rcases hwaiters w waiting hleft with ⟨rfl, howner, -⟩ | ⟨before, hbefore, howner⟩
        · exact ⟨n, request, hself, howner.symm⟩
        · obtain ⟨m, r, hm, hr⟩ := h.waiters b w before hbefore
          by_cases hmn : m = n
          · subst hmn
            obtain ⟨-, rfl, rfl, -⟩ := hown _ _ _ hm
            exact ⟨m, r, hself, hr.trans howner⟩
          · exact ⟨m, r, (hother m b r w hmn).mpr hm, hr.trans howner⟩
      · -- the thread has left, and its waiter id with it
        rw [PassWaiters, if_neg hdone] at hwaiters
        have hbefore : (s.heap b).table.waiters.lookup w = some waiting ∧ (registered = true → w ≠ waiterId) := by
          rw [hwaiters] at hleft
          split at hleft
          · have hne : w ≠ waiterId := by
              rintro rfl
              simp at hleft
            exact ⟨by rwa [AList.lookup_erase_ne hne] at hleft, fun _ => hne⟩
          · next hregistered => exact ⟨hleft, fun heq => absurd heq hregistered⟩
        obtain ⟨m, r, hm, hr⟩ := h.waiters b w waiting hbefore.1
        have hmn : m ≠ n := by
          rintro rfl
          obtain ⟨-, -, heq, hregistered⟩ := hown _ _ _ hm
          exact hbefore.2 hregistered heq
        exact ⟨m, r, (hother m b r w hmn).mpr hm, hr⟩
    · rw [show ((s.setTable a pass.2).setTask n (task.moveTo phase)).heap b = _ from heap_setAuthority_of_ne hb _] at hw
      obtain ⟨m, r, hm, hr⟩ := h.waiters b w waiting hw
      have hmn : m ≠ n := by
        rintro rfl
        exact hb (hown _ _ _ hm).1
      exact ⟨m, r, (hother m b r w hmn).mpr hm, hr⟩

/-! ## Changes of the installed authority -/

/-- A fresh authority is installed where there is none. -/
theorem Sound.install (h : Sound s) (hnone : s.installed = none) (lease : WriteLease) : Sound (s.install lease) := by
  have hfresh : ∀ b, b < s.next → (s.install lease).heap b = s.heap b :=
    fun b hb => Function.update_of_ne (Nat.ne_of_lt hb) ..
  have hself : (s.install lease).heap s.next = .new lease := Function.update_self ..
  have hcases : ∀ b, b = s.next ∨ (s.install lease).heap b = s.heap b := by
    intro b
    by_cases hb : b = s.next
    · exact .inl hb
    · exact .inr (Function.update_of_ne hb ..)
  refine ⟨?_, h.waiting, ?_, ?_, ?_, ?_, ?_, ?_, ?_, ?_⟩
  · intro b
    rcases hcases b with rfl | hb
    · rw [hself]
      exact .nil
    · rw [hb]
      exact h.tidy b
  · intro b w waiting hw
    rcases hcases b with rfl | hb
    · rw [hself] at hw
      cases hw
    · rw [hb] at hw
      exact h.waiters b w waiting hw
  · intro b hb
    rw [hfresh b (h.invalidating b hb)]
    exact h.ended b hb
  · intro b herror
    rcases hcases b with rfl | hb
    · rw [hself] at herror
      cases herror
    · rw [hb] at herror ⊢
      exact h.terminal b herror
  · intro b hinvalid
    rcases hcases b with rfl | hb
    · rw [hself]
      rfl
    · rw [hb] at hinvalid ⊢
      exact h.invalid b hinvalid
  · intro b hb
    rcases hcases b with rfl | heq
    · exact absurd rfl hb
    · rw [heq]
      exact h.orphan b (by rw [hnone]; exact nofun)
  · intro b hb
    cases hb
    exact Nat.lt_succ_self _
  · exact fun b hb => Nat.lt_succ_of_lt (h.referenced b hb)
  · exact fun b hb => Nat.lt_succ_of_lt (h.invalidating b hb)

/-- The installed authority is taken away, if it has no locks and no thread goes on with it as it is. -/
theorem Sound.uninstall (h : Sound s) (ha : s.installed = some a) (hlocks : (s.heap a).table.locks = [])
    (href : s.Referenced a → (s.heap a).table.invalidated = true) : Sound { s with installed := none } := by
  refine ⟨h.tidy, h.waiting, h.waiters, h.ended, h.terminal, h.invalid, ?_, nofun, h.referenced, h.invalidating⟩
  intro b _
  by_cases hb : b = a
  · subst hb
    exact ⟨hlocks, href⟩
  · exact h.orphan b (by rw [ha]; exact fun heq => hb (Option.some.inj heq).symm)

/-- A renewal of the lease of an authority. -/
theorem Sound.renew (h : Sound s) (ha : a < s.next) {renewed} (hrenewal : Renewal (s.heap a) renewed) :
    Sound (s.renew a renewed) := by
  cases hrenewal with
  | same | extended => exact h.setRecords a rfl rfl
  | ended error halive =>
    have hheap : ∀ b, ((s.renew a ((s.heap a).fail error, true)).heap b).table = (s.heap b).table ∧
        ((s.heap b).lastError.isSome → ((s.renew a ((s.heap a).fail error, true)).heap b).lastError.isSome) ∧
        (b ≠ a → (s.renew a ((s.heap a).fail error, true)).heap b = s.heap b) := by
      intro b
      by_cases hb : b = a
      · subst hb
        rw [show (s.renew b ((s.heap b).fail error, true)).heap b = _ from heap_setAuthority_self ..]
        exact ⟨rfl, fun _ => rfl, fun hne => absurd rfl hne⟩
      · rw [show (s.renew a ((s.heap a).fail error, true)).heap b = _ from heap_setAuthority_of_ne hb _]
        exact ⟨rfl, id, fun _ => rfl⟩
    refine ⟨?_, h.waiting, ?_, ?_, ?_, ?_, ?_, h.installed, h.referenced, ?_⟩
    · intro b
      rw [(hheap b).1]
      exact h.tidy b
    · intro b w waiting hw
      rw [(hheap b).1] at hw
      exact h.waiters b w waiting hw
    · intro b hb
      rcases Finset.mem_insert.mp hb with rfl | hb
      · rw [show (s.renew b ((s.heap b).fail error, true)).heap b = _ from heap_setAuthority_self ..]
        rfl
      · exact (hheap b).2.1 (h.ended b hb)
    · intro b herror
      rw [(hheap b).1]
      by_cases hb : b = a
      · exact .inr (hb ▸ Finset.mem_insert_self a s.invalidating)
      · rw [(hheap b).2.2 hb] at herror
        exact (h.terminal b herror).imp_right Finset.mem_insert_of_mem
    · intro b hinvalid
      rw [(hheap b).1] at hinvalid ⊢
      exact h.invalid b hinvalid
    · intro b hb
      rw [(hheap b).1]
      exact h.orphan b hb
    · intro b hb
      rcases Finset.mem_insert.mp hb with rfl | hb
      · exact ha
      · exact h.invalidating b hb

/-- An authority that has ended is invalidated. -/
theorem Sound.invalidate (h : Sound s) :
    Sound { s.setTable a (Locks.invalidate (s.heap a).table) with invalidating := s.invalidating.erase a } := by
  have htable := h.shrinks a (shrinks_invalidate (s.heap a).table)
  refine ⟨htable.tidy, htable.waiting, htable.waiters, ?_, ?_, htable.invalid, htable.orphan, htable.installed,
    htable.referenced, ?_⟩
  · exact fun b hb => htable.ended b (Finset.mem_of_mem_erase hb)
  · intro b herror
    by_cases hb : b = a
    · subst hb
      refine .inl ?_
      show ((s.setTable b _).heap b).table.invalidated = true
      rw [setTable, heap_setAuthority_self]
      rfl
    · exact (htable.terminal b herror).imp_right fun hmem => Finset.mem_erase.mpr ⟨hb, hmem⟩
  · exact fun b hb => htable.invalidating b (Finset.mem_of_mem_erase hb)

/-- What the releases of sessions do besides. -/
theorem Sound.frame (h : Sound s) (hheap : t.heap = s.heap) (hnext : t.next = s.next)
    (hinstalled : t.installed = s.installed) (hinvalidating : t.invalidating = s.invalidating)
    (htasks : t.tasks = s.tasks) : Sound t := by
  refine h.of_waits hheap hnext hinstalled hinvalidating ?_ fun n a request waiterId => by rw [Waits, Waits, htasks]
  rintro b ⟨n, task, htask, hb⟩
  exact .inr ⟨n, task, htasks ▸ htask, hb⟩

/-! ## Every step -/

/-- A thread that stands somewhere else does not wait. -/
theorem At.not_waits (h : s.At n task phase) (hphase : ∀ a, phase ≠ .waiting a) (b : Nat) (request : LockRequest)
    (waiterId : LockWaiterId) : ¬s.Waits n b request waiterId := by
  rintro ⟨other, hother, hwaiting, -⟩
  rw [h.1] at hother
  cases hother
  exact hphase b (h.2.symm.trans hwaiting)

theorem not_waits_of_lookup_none (h : s.tasks.lookup n = none) (b : Nat) (request : LockRequest)
    (waiterId : LockWaiterId) : ¬s.Waits n b request waiterId := by
  rintro ⟨other, hother, -⟩
  rw [h] at hother
  cases hother

theorem At.referenced (h : s.At n task phase) (ha : phase.authority = some a) : s.Referenced a :=
  ⟨n, task, h.1, h.2 ▸ ha⟩

/-- A thread goes on with the authority that it has. -/
theorem Sound.moveTo (h : Sound s) (phase' : TaskPhase) (hat : s.At n task phase)
    (ha : phase'.authority = phase.authority) (hphases : ∀ b, phase ≠ .waiting b ∧ phase' ≠ .waiting b) :
    Sound (s.setTask n (task.moveTo phase')) := by
  refine h.setTask ⟨hat.not_waits fun b => (hphases b).1, fun b => (hphases b).2, fun b hb => .inr ?_⟩
  exact hat.referenced (ha.symm.trans hb)

/-- A thread ends. -/
theorem Sound.finish (h : Sound s) (hat : s.At n task phase) (hphase : ∀ b, phase ≠ .waiting b) :
    Sound (s.endTask n) := h.endTask (hat.not_waits hphase)

/-- The pins and waiters of an authority change. -/
theorem Sound.records (h : Sound s) (a : Nat) (pinned : Finset FileLockOwner) (waiters : Finset LockWaiterId) :
    Sound (s.setAuthority a ⟨(s.heap a).table, (s.heap a).lease, pinned, waiters, (s.heap a).lastError⟩) :=
  h.setRecords a rfl rfl

theorem not_referenced_of_unreferenced (h : s.unreferenced a = true) : ¬s.Referenced a := by
  rintro ⟨n, task, htask, ha⟩
  simp only [unreferenced, Bool.and_eq_true, List.all_eq_true] at h
  have hmem := h.1 ⟨n, task⟩ (AList.mem_lookup_iff.mp htask)
  rw [ha] at hmem
  simp at hmem

theorem reach_authority (task : LockTask) (a : Nat) : (task.reach a).phase.authority = some a := by
  unfold LockTask.reach LockTask.moveTo
  split <;> rfl

theorem reach_ne_waiting (task : LockTask) (a b : Nat) : (task.reach a).phase ≠ .waiting b := by
  unfold LockTask.reach LockTask.moveTo
  split <;> exact nofun

/-- A thread that gets the installed authority. -/
theorem moves_reach (h : ∀ b request waiterId, ¬s.Waits n b request waiterId) (ha : s.installed = some a) :
    Moves s n (task.reach a) where
  before := h
  after := reach_ne_waiting task a
  authority := fun _ hb => .inl (ha.trans ((reach_authority task a).symm.trans hb))

theorem locks_of_isIdle (h : isIdle table = true) : table.locks = [] := by
  simp only [isIdle, Bool.and_eq_true] at h
  exact List.isEmpty_iff.mp h.1.1.1.1

/-- An authority that is replaced. -/
theorem Sound.fence (h : Sound s) (a : Nat) : Sound (s.setAuthority a (s.heap a).fence) := by
  refine h.setAuthority ⟨.nil, fun _ => rfl, fun _ => .inl rfl, fun _ => rfl, fun _ => rfl, fun _ => rfl⟩ nofun

theorem Sound.acquire (h : Sound s) {lease} (hat : s.At n task (.leased lease)) (full : Bool) :
    Sound (s.acquire n task lease full) := by
  have hnot := hat.not_waits (fun _ => nofun)
  unfold LockService.acquire
  split
  · next a ha =>
    split
    · split
      · exact h.endTask hnot
      · next refreshed hrefreshed =>
        have hrefreshed : Sound (s.setAuthority a refreshed) := h.renew (h.installed a ha) (refresh_ok hrefreshed)
        exact hrefreshed.setTask (moves_reach hnot ha)
    · have hgone : Sound { s.setAuthority a (s.heap a).fence with installed := none } := by
        refine (h.fence a).uninstall ha ?_ fun _ => ?_
        · rw [heap_setAuthority_self]
          rfl
        · rw [heap_setAuthority_self]
          rfl
      exact (hgone.install rfl lease).setTask (moves_reach hnot rfl)
  · next hnone =>
    split
    · exact h.endTask hnot
    · exact (h.install hnone lease).setTask (moves_reach hnot rfl)

theorem Sound.afterSet (h : Sound s) (hat : s.At n task (.opened a)) :
    Sound (s.afterSet n task a (Locks.setlkNonblocking .default request (s.heap a).table)) := by
  have hnot := hat.not_waits (fun _ => nofun)
  have htable : Sound (s.setTable a (Locks.setlkNonblocking .default request (s.heap a).table).2) := by
    obtain ⟨-, happlied, hwaiters, hinvalidated, -⟩ | ⟨-, hsame⟩ :=
      setlkNonblocking_spec .default request (s.heap a).table
    · exact h.applied (hat.referenced rfl) happlied hwaiters hinvalidated
    · rw [hsame]
      exact h.setRecords a rfl rfl
  unfold LockService.afterSet
  split
  · exact htable.moveTo (.applied a) hat rfl fun _ => ⟨nofun, nofun⟩
  · exact htable.endTask hnot

theorem sessions_noteClosed (s : LockService) (session : String) : ∃ sessions admission,
    s.noteClosed session = { s with closedSessions := sessions, closedAdmission := admission } := by
  unfold noteClosed
  split <;> exact ⟨_, _, rfl⟩

/-- **Every step keeps `Sound`.** -/
theorem Sound.step (h : Sound s) {e t} (hstep : s.step e = some t) : Sound t := by
  cases e with (first | obtain ⟨hguard, rfl⟩ := guarded_eq_some.mp hstep | cases hstep)
  | begin =>
    exact h.setTask ⟨not_waits_of_lookup_none hguard.1, fun _ => nofun, nofun⟩
  | acquire n task lease full =>
    exact h.acquire hguard full
  | ensure n task a =>
    split
    · exact h.moveTo (.opened a) hguard rfl fun _ => ⟨nofun, nofun⟩
    · exact h.finish hguard fun _ => nofun
  | abandon n task =>
    obtain ⟨htask, hearly⟩ := hguard
    refine h.endTask (At.not_waits ⟨htask, rfl⟩ fun b hb => ?_)
    rw [hb] at hearly
    cases hearly
  | registerWaiter _ _ _ _ a =>
    unfold LockService.registerWaiter
    split
    · exact h.finish hguard.1 fun _ => nofun
    · exact (h.records a _ _).moveTo (.registered a) hguard.1 rfl fun _ => ⟨nofun, nofun⟩
  | setNonblocking =>
    exact h.afterSet hguard.1
  | setBlocking =>
    obtain ⟨hat, haction⟩ := hguard
    exact h.afterPass false hat.1 haction hat.2 setlkBlocking_spec
  | wake n task request waiterId a =>
    obtain ⟨hat, haction⟩ := hguard
    have hrange := h.waiting n a request waiterId ⟨task, hat.1, hat.2, haction⟩
    exact h.afterPass true hat.1 haction hat.2 (setlkBlockingWake_spec hrange)
  | unpinWaiter _ _ _ _ a =>
    unfold LockService.unpinWaiter
    split
    · exact (h.records a _ _).moveTo (.applied a) hguard.1 rfl fun _ => ⟨nofun, nofun⟩
    · exact (h.records a _ _).finish hguard.1 fun _ => nofun
  | pin n task a =>
    unfold LockService.pin
    split
    · exact h.finish hguard.1 fun _ => nofun
    · exact (h.records a _ _).finish hguard.1 fun _ => nofun
  | checkActivity n task a =>
    unfold LockService.checkActivity
    split
    · exact h.finish hguard.1 fun _ => nofun
    · exact h.moveTo (.inactive a) hguard.1 rfl fun _ => ⟨nofun, nofun⟩
  | unpin n task a =>
    exact (h.records a _ _).finish hguard fun _ => nofun
  | beginRelease =>
    obtain ⟨hfresh, ha⟩ := hguard
    refine h.setTask ⟨not_waits_of_lookup_none hfresh, fun _ => nofun, fun b hb => .inl ?_⟩
    cases hb
    exact (Option.filter_eq_some_iff.mp ha).1
  | releaseOwner n task kind owner a =>
    have htable := h.shrinks a (shrinks_releaseOwner kind owner)
    exact htable.moveTo (.applied a) hguard.1 rfl fun _ => ⟨nofun, nofun⟩
  | cancelWaiter a waiterId =>
    exact h.shrinks a shrinks_cancelWaiterWithOutcome
  | acknowledgeWaiter a waiterId =>
    exact h.shrinks a shrinks_acknowledgeWaiter
  | forgetWaiter a waiterId =>
    exact h.setRecords a rfl rfl
  | renewSuccess a now renewed =>
    exact h.renew hguard (renewal_success renewed)
  | renewFailure a now attempted error =>
    exact h.renew hguard (renewal_failure attempted error)
  | expire a now =>
    exact h.renew hguard renewal_expire
  | invalidate a =>
    exact h.invalidate
  | reclaim a =>
    obtain ⟨ha, hidle, hfree⟩ := hguard
    exact h.uninstall ha (locks_of_isIdle hidle) fun href => absurd href (not_referenced_of_unreferenced hfree)
  | closeSession session =>
    obtain ⟨sessions, admission, hnote⟩ := sessions_noteClosed s session
    rw [hnote]
    exact h.frame rfl rfl rfl rfl rfl
  | beginSessionRelease n session epoch =>
    obtain ⟨sessions, admission, hnote⟩ := sessions_noteClosed s session
    rw [hnote]
    exact h.frame rfl rfl rfl rfl rfl
  | findAuthority | checkKnown =>
    split
    · exact h.frame rfl rfl rfl rfl rfl
    · exact h.frame rfl rfl rfl rfl rfl
  | releaseTable n release a =>
    have htable := h.shrinks a (shrinks_releaseSession .default release.session)
    exact htable.frame rfl rfl rfl rfl rfl
  | retainPins n release a =>
    have hretain : Sound (s.setAuthority a (retainSession (s.heap a) release.session)) := h.setRecords a rfl rfl
    exact hretain.frame rfl rfl rfl rfl rfl

/-- The steps of a thread whose request is applied at once. -/
def applying (n : Nat) (request : LockRequest) (lease : WriteLease) (a : Nat) : List Event :=
  [.begin n request none lease true, .acquire n ⟨.set request none, true, .leased lease⟩ lease false,
    .setNonblocking n ⟨.set request none, true, .opened a⟩ request a]

/-- The steps of a thread that gets a lock. -/
def locking (n : Nat) (request : LockRequest) (lease : WriteLease) (a : Nat) : List Event :=
  applying n request lease a ++ [.pin n ⟨.set request none, true, .applied a⟩ a]

end Afs.Locks.LockService
