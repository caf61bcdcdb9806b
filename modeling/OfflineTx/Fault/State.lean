import OfflineTx.Fault

/-!
# Error states

An object keeps whether the last call made on it failed, and if so the code and the message of
the fault. A code is any number, so that a state can hold what others report.
-/

namespace OfflineTx

structure ErrorState where
  failed : Bool
  code : Int
  message : Bytes
deriving DecidableEq

namespace ErrorState

/-- The state of an object on which no call has failed. -/
def clear : ErrorState where
  failed := false
  code := 0
  message := []

instance : Inhabited ErrorState := ⟨clear⟩

def set (code : Int) (message : Bytes) : ErrorState where
  failed := true
  code := code
  message := message

/-- A failure known by its text alone counts as one of input or output. -/
def setText (message : Bytes) : ErrorState :=
  set FaultKind.io.code message

def setSystem (message : Bytes) (number : Int) : ErrorState :=
  setText (Fault.withSystemError message number)

/-- Reports what another object reports. This is a failure even if the other has not failed. -/
def adopt (other : ErrorState) : ErrorState :=
  set other.code other.message

def ofFault (f : Fault) : ErrorState :=
  set f.kind.code f.message

theorem code_ofFault_ne_zero (f : Fault) : (ofFault f).code ≠ 0 := by
  have := f.kind.code_pos
  simp only [ofFault, set]
  omega

end ErrorState

/-- An object together with what it reports of the last call. -/
structure Tracked (α : Type) where
  value : α
  errors : ErrorState

def Tracked.fresh {α : Type} (value : α) : Tracked α where
  value := value
  errors := .clear

end OfflineTx
