import OfflineTx.Fault.State
import OfflineTx.Log

/-!
# Calls on objects

A call is a row of steps on an object and ends at the first step that fails. An object that is
called reports of the last call whether it failed. No step but those below changes what it reports:
a call takes back what the one before left (`Method.reset`), a step that fails has its fault
reported (`Method.fail`), and where a call on a part of the object fails, the object reports what
the part does (`Method.callOn`).
-/

namespace OfflineTx

/-- What comes of a call: the answer, the object after it, and what the log says. -/
structure Reply (σ α : Type) where
  answer : Except Fault α
  after : σ
  log : List Log.Entry := []

/-- An object that reports the calls made on it. -/
class Reporter (σ : Type) where
  errors : σ → ErrorState
  report : ErrorState → σ → σ

instance {α : Type} : Reporter (Tracked α) where
  errors := Tracked.errors
  report errors s := { s with errors }

/-- Of two objects the first reports. -/
instance {σ τ : Type} [Reporter σ] : Reporter (σ × τ) where
  errors s := Reporter.errors s.1
  report errors s := (Reporter.report errors s.1, s.2)

/-- Where a part of an object is. -/
structure Part (σ τ : Type) where
  get : σ → τ
  set : τ → σ → σ

namespace Part

variable {σ τ : Type}

def first : Part (σ × τ) σ where
  get := Prod.fst
  set t s := (t, s.2)

def second : Part (σ × τ) τ where
  get := Prod.snd
  set t s := (s.1, t)

end Part

/-- The steps of a call. -/
def Method (σ α : Type) : Type :=
  σ → Reply σ α

namespace Method

variable {σ τ α β : Type}

/-- The reply of an object that is called. -/
def run (s : σ) (m : Method σ α) : Reply σ α :=
  m s

/-- Calls the object itself. -/
def call (f : σ → Reply σ α) : Method σ α :=
  f

/-- What comes after a step that fails is not done. -/
def bind (m : Method σ α) (f : α → Method σ β) : Method σ β := fun s =>
  let reply := m s
  match reply.answer with
  | .error fault => { answer := .error fault, after := reply.after, log := reply.log }
  | .ok a =>
    let rest := f a reply.after
    { rest with log := reply.log ++ rest.log }

instance : Monad (Method σ) where
  pure a := fun s => { answer := .ok a, after := s }
  bind := bind

def get : Method σ σ := fun s =>
  { answer := .ok s, after := s }

def modify (f : σ → σ) : Method σ Unit := fun s =>
  { answer := .ok (), after := f s }

def note (entries : List Log.Entry) : Method σ Unit := fun s =>
  { answer := .ok (), after := s, log := entries }

section Reporting

variable [Reporter σ] [Reporter τ]

/-- Takes back what is reported. -/
def reset : Method σ Unit :=
  modify (Reporter.report .clear)

/-- Fails for a fault whose text is another. -/
def failWith (f : Fault) (text : Bytes) : Method σ α := fun s =>
  { answer := .error f, after := Reporter.report (.set f.kind.code text) s }

def fail (f : Fault) : Method σ α :=
  failWith f f.message

/-- Fails if a check or a computation does. -/
def check (answer : Except Fault α) : Method σ α :=
  match answer with
  | .ok a => pure a
  | .error f => fail f

/-- Calls a part of the object. -/
def callOn (part : Part σ τ) (f : τ → Reply τ α) : Method σ α := fun s =>
  let reply := f (part.get s)
  let s := part.set reply.after s
  match reply.answer with
  | .ok a => { answer := .ok a, after := s, log := reply.log }
  | .error f =>
    { answer := .error f
      after := Reporter.report (Reporter.errors reply.after).adopt s
      log := reply.log }

end Reporting

/-- The steps with a new object beside, which is then forgotten. -/
def beside (new : τ) (m : Method (σ × τ) α) : Method σ α := fun s =>
  let reply := m (s, new)
  { answer := reply.answer, after := reply.after.1, log := reply.log }

/-- If a step fails, the object is changed once more. -/
def orElse (f : σ → σ) (m : Method σ α) : Method σ α := fun s =>
  let reply := m s
  match reply.answer with
  | .ok _ => reply
  | .error _ => { reply with after := f reply.after }

section Run

variable {s : σ} {a : α} {f : Fault} {next : α → Method σ β}

@[simp] theorem run_call {f : σ → Reply σ α} : run s (call f) = f s := rfl

@[simp] theorem run_get_bind {next : σ → Method σ β} : run s (get >>= next) = run s (next s) := rfl

@[simp] theorem run_modify_bind {g : σ → σ} {next : Unit → Method σ β} :
    run s (modify g >>= next) = run (g s) (next ()) := rfl

@[simp] theorem run_note {entries : List Log.Entry} :
    run s (note entries) = { answer := .ok (), after := s, log := entries } := rfl

theorem run_bind {m : Method σ α} : run s (m >>= next) =
    match run s m with
    | { answer := .error f, after, log } => { answer := .error f, after, log }
    | { answer := .ok a, after, log } =>
      let rest := run after (next a)
      { rest with log := log ++ rest.log } := by
  change Method.bind m next s = _
  unfold Method.bind run
  rcases m s with ⟨f | a, after, log⟩ <;> rfl

theorem run_beside {new : τ} {m : Method (σ × τ) α} : run s (beside new m) =
    { answer := (run (s, new) m).answer
      after := (run (s, new) m).after.1
      log := (run (s, new) m).log } := rfl

theorem run_orElse {g : σ → σ} {m : Method σ α} : run s (orElse g m) =
    match run s m with
    | { answer := .error f, after, log } => { answer := .error f, after := g after, log }
    | { answer := .ok a, after, log } => { answer := .ok a, after, log } := by
  unfold orElse run
  dsimp only
  rcases m s with ⟨f | a, after, log⟩ <;> rfl

section Reporting

variable [Reporter σ] [Reporter τ]

@[simp] theorem run_reset_bind {next : Unit → Method σ β} :
    run s (reset >>= next) = run (Reporter.report .clear s) (next ()) := rfl

@[simp] theorem run_check_ok_bind : run s (check (.ok a) >>= next) = run s (next a) := rfl

theorem run_callOn {part : Part σ τ} {f : τ → Reply τ α} : run s (callOn part f) =
    match f (part.get s) with
    | { answer := .error f, after, log } =>
      { answer := .error f
        after := Reporter.report (Reporter.errors after).adopt (part.set after s)
        log }
    | { answer := .ok a, after, log } => { answer := .ok a, after := part.set after s, log } := by
  unfold callOn run
  dsimp only
  rcases f (part.get s) with ⟨f | a, after, log⟩ <;> rfl

end Reporting

end Run

end Method

end OfflineTx
