/-! # Computations with a log

A computation that may fail and leaves a log, which survives the failure. The log of a
sequence is the log of its parts in order, up to the first part that fails. -/

namespace PolishLogic

/-- A log and a result, or the error that ended it. -/
structure Logged (μ ε α : Type) where
  log : List μ
  result : Except ε α

namespace Logged

variable {μ ν ε δ α β : Type}

protected def pure (a : α) : Logged μ ε α := ⟨[], .ok a⟩

def fail (e : ε) : Logged μ ε α := ⟨[], .error e⟩

def emit (m : μ) : Logged μ ε Unit := ⟨[m], .ok ()⟩

/-- Does something that leaves no log. -/
def ofExcept (x : Except ε α) : Logged μ ε α := ⟨[], x⟩

protected def bind (x : Logged μ ε α) (f : α → Logged μ ε β) : Logged μ ε β :=
  match x.result with
  | .error e => ⟨x.log, .error e⟩
  | .ok a =>
    let y := f a
    ⟨x.log ++ y.log, y.result⟩

instance : Monad (Logged μ ε) where
  pure := Logged.pure
  bind := Logged.bind

def mapLog (f : μ → ν) (x : Logged μ ε α) : Logged ν ε α := ⟨x.log.map f, x.result⟩

def mapError (f : ε → δ) (x : Logged μ ε α) : Logged μ δ α := ⟨x.log, x.result.mapError f⟩

@[simp] theorem pure_def (a : α) : (pure a : Logged μ ε α) = ⟨[], .ok a⟩ := rfl

@[simp] theorem bind_error (log : List μ) (e : ε) (f : α → Logged μ ε β) :
    ((⟨log, .error e⟩ : Logged μ ε α) >>= f) = ⟨log, .error e⟩ := rfl

@[simp] theorem bind_ok (log : List μ) (a : α) (f : α → Logged μ ε β) :
    ((⟨log, .ok a⟩ : Logged μ ε α) >>= f) = ⟨log ++ (f a).log, (f a).result⟩ := rfl

/-- What a sequence comes to does not depend on the logs. -/
@[simp] theorem result_bind (x : Logged μ ε α) (f : α → Logged μ ε β) :
    (x >>= f).result = x.result >>= fun a => (f a).result := by
  rcases x with ⟨log, e | a⟩ <;> rfl

@[simp] theorem result_mapLog (g : μ → ν) (x : Logged μ ε α) :
    (x.mapLog g).result = x.result := rfl

@[simp] theorem result_mapError (g : ε → δ) (x : Logged μ ε α) :
    (x.mapError g).result = x.result.mapError g := rfl

instance : LawfulMonad (Logged μ ε) := LawfulMonad.mk' (Logged μ ε)
  (by rintro α ⟨log, _ | a⟩ <;> simp [Functor.map, Logged.bind, Logged.pure])
  (by intro α β a f; simp)
  (by
    rintro α β γ ⟨log, e | a⟩ f g
    · rfl
    · show _ = (⟨log, Except.ok a⟩ : Logged μ ε α) >>= fun a => f a >>= g
      simp only [bind_ok]
      rcases f a with ⟨log', e | b⟩ <;> simp [List.append_assoc])

end Logged
end PolishLogic
