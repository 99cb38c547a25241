import Mathlib.Algebra.Ring.Nat

/-!
# `Error` — coded errors

Every fallible call of the program answers an error that carries a stable code and a message. The codes are
the ones the metadata service and the node adapter construct or inspect.
-/

namespace Afs

/-- The error codes of `afs_error` that the modelled code constructs. -/
inductive ErrorCode
  | ioNotFound | ioInvalid | ioNotDirectory | ioIsDirectory | ioDirectoryNotEmpty | ioAlreadyExists
  | ioNameTooLong | ioNoData | ioNotSupported | ioOperationNotPermitted | ioPermissionDenied | ioUnavailable
  | clientPermissionDenied | metaCatalogInvalidRequest | metaDfsConflict | metaDfsLeaseRetry
  | metaDfsRepairSuperseded | nodeVfsNotFound | nodeVfsInvalid | nodeDfsStaleHandle | nodeOwnerInvalidGrant
  | nodeStorageInvalid | nodeTransferCorruptData | nodeTransferInvalid | clientRemoteStatus
  deriving DecidableEq

structure Error where
  code : ErrorCode
  message : String
  deriving DecidableEq

abbrev Result (α : Type) := Except Error α

section

variable (message : String)

def notFound : Error := ⟨.ioNotFound, message⟩
def notDirectory : Error := ⟨.ioNotDirectory, message⟩
def isDirectory : Error := ⟨.ioIsDirectory, message⟩
def directoryNotEmpty : Error := ⟨.ioDirectoryNotEmpty, message⟩
def alreadyExists : Error := ⟨.ioAlreadyExists, message⟩
def nameTooLong : Error := ⟨.ioNameTooLong, message⟩
def noData : Error := ⟨.ioNoData, message⟩
def notSupported : Error := ⟨.ioNotSupported, message⟩
def operationNotPermitted : Error := ⟨.ioOperationNotPermitted, message⟩
def permissionDenied : Error := ⟨.ioPermissionDenied, message⟩
def unavailable : Error := ⟨.ioUnavailable, message⟩
def invalid : Error := ⟨.metaCatalogInvalidRequest, message⟩
def conflict : Error := ⟨.metaDfsConflict, message⟩

/-- The store's own name for the invalid-request code (`store.rs`). -/
def invalidContract : Error := invalid message

end

def invalidNameError : Error := invalid "DFS name must be one non-empty path component"

/-- A sequence of fallible steps succeeds when each of them does. -/
theorem bind_eq_ok {ε α β : Type} {x : Except ε α} {f} {b : β} : x >>= f = .ok b ↔ ∃ a, x = .ok a ∧ f a = .ok b := by
  cases x with
  | error | ok => simp [bind, Except.bind]

/-- A fold of fallible steps succeeds when each step succeeds from what the steps before it keep. -/
theorem foldlM_total {ε α β : Type} {step : β → α → Except ε β} {I : β → Prop} {l : List α} {b : β}
    (hstep : ∀ b, I b → ∀ a ∈ l, ∃ b', step b a = .ok b' ∧ I b') (hb : I b) :
    ∃ b', l.foldlM step b = .ok b' ∧ I b' := by
  induction l generalizing b with
  | nil => exact ⟨b, rfl, hb⟩
  | cons a l ih =>
    obtain ⟨mid, hmid, hI⟩ := hstep b hb a List.mem_cons_self
    obtain ⟨b', hb', hI'⟩ := ih (fun b hb a ha => hstep b hb a (List.mem_cons_of_mem _ ha)) hI
    refine ⟨b', ?_, hI'⟩
    rw [List.foldlM_cons]
    exact bind_eq_ok.mpr ⟨mid, hmid, hb'⟩

end Afs
