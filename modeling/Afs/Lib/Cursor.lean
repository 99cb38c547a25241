import Mathlib.Order.Lattice
import Mathlib.Data.List.Basic

/-!
# `Lib.Cursor` — reading a growing log through a cursor

A log is a list of entries that each carry a stamp, in the order of their stamps. A reader keeps the stamp up to which
it has read; what it has read is the part of the log between two stamps. Parts of neighbouring intervals follow one
another in the log, and appending entries with later stamps changes none of them.
-/

namespace Cursor

open List

variable {ε σ : Type} [LinearOrder σ] (stamp : ε → σ)

/-- The entries after `start` up to `stop`. -/
def between (log : List ε) (start stop : σ) : List ε :=
  log.filter fun entry => start < stamp entry ∧ stamp entry ≤ stop

/-- The stamps of the log do not decrease. -/
def Sorted (log : List ε) : Prop := log.Pairwise fun entry later => stamp entry ≤ stamp later

variable {stamp} {log more : List ε} {start mid stop : σ}

variable {entry : ε}

theorem mem_between :
    entry ∈ between stamp log start stop ↔ entry ∈ log ∧ start < stamp entry ∧ stamp entry ≤ stop := by
  simp [between]

theorem between_eq_nil (h : stop ≤ start) : between stamp log start stop = [] := by
  refine filter_eq_nil_iff.mpr fun entry _ => ?_
  simpa using fun hstart => lt_of_le_of_lt h hstart

theorem between_cons_of_le (h : stamp entry ≤ start) :
    between stamp (entry :: log) start stop = between stamp log start stop :=
  filter_cons_of_neg (by simpa using fun hlt => absurd hlt (not_lt.mpr h))

theorem between_cons_of_mem (hstart : start < stamp entry) (hstop : stamp entry ≤ stop) :
    between stamp (entry :: log) start stop = entry :: between stamp log start stop :=
  filter_cons_of_pos (by simpa using ⟨hstart, hstop⟩)

theorem between_eq_nil_of_lt (h : ∀ entry ∈ log, stop < stamp entry) : between stamp log start stop = [] := by
  refine filter_eq_nil_iff.mpr fun entry hmem => ?_
  simpa using fun _ => h entry hmem

/-- **Neighbouring parts follow one another.** -/
theorem between_append_between (hsorted : Sorted stamp log) (hstart : start ≤ mid) (hstop : mid ≤ stop) :
    between stamp log start mid ++ between stamp log mid stop = between stamp log start stop := by
  induction log with
  | nil => rfl
  | cons entry rest ih =>
    obtain ⟨hle, hrest⟩ := pairwise_cons.mp hsorted
    by_cases hbefore : stamp entry ≤ start
    · rw [between_cons_of_le hbefore, between_cons_of_le hbefore, between_cons_of_le (hbefore.trans hstart), ih hrest]
    · have hafter := not_le.mp hbefore
      by_cases hmid : stamp entry ≤ mid
      · rw [between_cons_of_mem hafter hmid, between_cons_of_le hmid, between_cons_of_mem hafter (hmid.trans hstop),
          cons_append, ih hrest]
      · -- the first entry lies past the middle, and so do all that follow
        have hpast : ∀ later ∈ entry :: rest, mid < stamp later := by
          intro later hmem
          rcases mem_cons.mp hmem with rfl | hmem
          · exact not_le.mp hmid
          · exact lt_of_lt_of_le (not_le.mp hmid) (hle later hmem)
        have hsame : between stamp (entry :: rest) mid stop = between stamp (entry :: rest) start stop := by
          refine filter_congr fun later hmem => ?_
          simp [hpast later hmem, lt_of_le_of_lt hstart (hpast later hmem)]
        rw [between_eq_nil_of_lt hpast, hsame]
        rfl

/-- **Later entries change nothing.** -/
theorem between_append (h : ∀ entry ∈ more, stop < stamp entry) :
    between stamp (log ++ more) start stop = between stamp log start stop := by
  rw [between, filter_append]
  exact (congrArg _ (between_eq_nil_of_lt h)).trans (append_nil _)

/-- A part of the log lies in the log as a whole: before it is what has been read earlier, after it what is still to be
    read. -/
theorem exists_append_between_append (hsorted : Sorted stamp log) (start stop : σ) :
    ∃ before after, log = before ++ between stamp log start stop ++ after ∧
      (∀ entry ∈ before, stamp entry ≤ start) ∧ ∀ entry ∈ after, stop < stamp entry := by
  induction log with
  | nil => exact ⟨[], [], rfl, nofun, nofun⟩
  | cons entry rest ih =>
    obtain ⟨hle, hrest⟩ := pairwise_cons.mp hsorted
    obtain ⟨before, after, hlog, hbefore, hafter⟩ := ih hrest
    by_cases hstart : stamp entry ≤ start
    · refine ⟨entry :: before, after, ?_, ?_, hafter⟩
      · rw [between_cons_of_le hstart, cons_append, cons_append, ← hlog]
      · exact fun earlier hmem => (mem_cons.mp hmem).elim (· ▸ hstart) (hbefore earlier)
    · have hall : ∀ later ∈ rest, stamp entry ≤ stamp later := hle
      by_cases hstop : stamp entry ≤ stop
      · -- nothing of the rest is at or before `start`
        have hnone : before = [] := eq_nil_iff_forall_not_mem.mpr fun earlier hmem =>
          hstart ((hall earlier (by rw [hlog]; simp [hmem])).trans (hbefore earlier hmem))
        refine ⟨[], after, ?_, nofun, hafter⟩
        rw [between_cons_of_mem (not_le.mp hstart) hstop, nil_append, cons_append]
        rw [hnone, nil_append] at hlog
        rw [← hlog]
      · have hpast : ∀ later ∈ entry :: rest, stop < stamp later := by
          intro later hmem
          rcases mem_cons.mp hmem with rfl | hmem
          · exact not_le.mp hstop
          · exact lt_of_lt_of_le (not_le.mp hstop) (hall later hmem)
        exact ⟨[], entry :: rest, by rw [between_eq_nil_of_lt hpast]; rfl, nofun, hpast⟩

/-- A sorted list ends with its largest stamp. -/
theorem Sorted.le_getLast (hsorted : Sorted stamp log) (hne : log ≠ []) (h : entry ∈ log) :
    stamp entry ≤ stamp (log.getLast hne) := by
  have hparts := dropLast_append_getLast hne
  rw [← hparts] at h hsorted
  rcases mem_append.mp h with h | h
  · exact (pairwise_append.mp hsorted).2.2 entry h _ (mem_singleton_self _)
  · rw [mem_singleton.mp h]

/-- **Entries up to any bound are a part of the log**: those past `start` that lie at or before `cutoff` are the entries
    between `start` and the last of them. -/
theorem filter_eq_between {cutoff part} (hsorted : Sorted stamp log)
    (hcutoff : ∀ entry later, cutoff later = true → stamp entry ≤ stamp later → cutoff entry = true)
    (hpart : part = (log.filter fun entry => start < stamp entry).filter cutoff) (hne : part ≠ []) :
    part = between stamp log start (stamp (part.getLast hne)) := by
  have hkept : Sorted stamp part := hpart ▸ (hsorted.filter (fun entry => start < stamp entry)).filter cutoff
  have hmem : ∀ entry, entry ∈ part ↔ entry ∈ log ∧ start < stamp entry ∧ cutoff entry = true := by
    intro entry
    rw [hpart, mem_filter, mem_filter, decide_eq_true_eq, and_assoc]
  have hlast := (hmem _).mp (getLast_mem hne)
  generalize hstop : part.getLast hne = last at hlast ⊢
  rw [hpart, between, filter_filter]
  refine filter_congr fun entry hentry => ?_
  rw [Bool.eq_iff_iff]
  simp only [Bool.and_eq_true, decide_eq_true_eq]
  constructor
  · rintro ⟨hcut, hstart⟩
    exact ⟨hstart, hstop ▸ hkept.le_getLast hne ((hmem entry).mpr ⟨hentry, hstart, hcut⟩)⟩
  · rintro ⟨hstart, hle⟩
    exact ⟨hcutoff entry last hlast.2.2 hle, hstart⟩

end Cursor
