import Moonglass.Lib.Result

/-
  Computations on a mutable state. A computation returns a value or an error and leaves a state
  behind; after an error the writes made before it stay. `Computes m s r` links such a computation
  to a function that returns the new state, and `Atomic m s` says that an error leaves no write.
  A computation that fails only before its first write is atomic, and so is one that works on a
  copy of the state and commits the copy at the end.
-/

namespace Moonglass.Lib

variable {σ τ ε α β : Type}

/-- A computation that reads and writes a state in place. -/
abbrev InPlace (σ ε α : Type) := ExceptT ε (StateM σ) α

namespace InPlace

/-- The result of a computation and the state it leaves. -/
def exec (m : InPlace σ ε α) (s : σ) : Except ε α × σ := StateT.run (ExceptT.run m) s

/-- Look at the state, or fail, without a write. -/
def inspect (f : σ → Except ε α) : InPlace σ ε α := ExceptT.mk fun s => (f s, s)

/-- A step that does not depend on the state. -/
def check (x : Except ε α) : InPlace σ ε α := inspect fun _ => x

/-- Overwrite the state. -/
def write (f : σ → σ) : InPlace σ ε Unit := ExceptT.mk fun s => (.ok (), f s)

/-- Work in place on a component of the state; its writes stay in the state, error or not. -/
def within (t : τ) (put : τ → σ → σ) (m : InPlace τ ε α) : InPlace σ ε α :=
  ExceptT.mk fun s => ((m.exec t).1, put (m.exec t).2 s)

/-- The state after a function that returns the new state: an error leaves the old one. -/
def committed (s : σ) : Except ε σ → Except ε Unit × σ
  | .ok s' => (.ok (), s')
  | .error e => (.error e, s)

/-- Work on a copy of the state and commit it on success only. -/
def onCopy (m : InPlace σ ε Unit) : InPlace σ ε Unit :=
  ExceptT.mk fun s =>
    match m.exec s with
    | (.ok (), s') => (.ok (), s')
    | (.error e, _) => (.error e, s)

variable {s : σ}
variable {m m' : InPlace σ ε Unit} {a : α} {s' : σ} {e : ε} {f : σ → Except ε α}
  {k : Unit → InPlace σ ε Unit} {g : α → Except ε σ} {x : Except ε α}

theorem exec_bind_ok {m : InPlace σ ε α} (h : m.exec s = (.ok a, s')) (k : α → InPlace σ ε β) :
    (m >>= k).exec s = (k a).exec s' := by
  show StateT.run (ExceptT.run m >>= ExceptT.bindCont k) s = _
  rw [StateT.run_bind]
  have h : StateT.run (ExceptT.run m) s = (.ok a, s') := h
  rw [h]
  rfl

theorem exec_bind_error {m : InPlace σ ε α} {e : ε} {s' : σ} (h : m.exec s = (.error e, s'))
    (k : α → InPlace σ ε β) : (m >>= k).exec s = (.error e, s') := by
  show StateT.run (ExceptT.run m >>= ExceptT.bindCont k) s = _
  rw [StateT.run_bind]
  have h : StateT.run (ExceptT.run m) s = (.error e, s') := h
  rw [h]
  rfl

theorem exec_inspect (f : σ → Except ε α) (s : σ) : (inspect f).exec s = (f s, s) := rfl

theorem exec_inspect_ok (h : f s = .ok a) (k : α → InPlace σ ε β) :
    (inspect f >>= k).exec s = (k a).exec s := exec_bind_ok (by rw [exec_inspect, h]) k

theorem exec_inspect_error (h : f s = .error e) (k : α → InPlace σ ε β) :
    (inspect f >>= k).exec s = (.error e, s) :=
  exec_bind_error (by rw [exec_inspect, h]) k

theorem exec_within (t : τ) (put : τ → σ → σ) (m : InPlace τ ε α) (s : σ) :
    (within t put m).exec s = ((m.exec t).1, put (m.exec t).2 s) := rfl

theorem exec_onCopy_ok (h : m.exec s = (.ok (), s')) : m.onCopy.exec s = (.ok (), s') := by
  show (match m.exec s with
    | (.ok (), s') => ((.ok (), s') : Except ε Unit × σ)
    | (.error e, _) => (.error e, s)) = _
  rw [h]

theorem exec_onCopy_error (h : m.exec s = (.error e, s')) : m.onCopy.exec s = (.error e, s) := by
  show (match m.exec s with
    | (.ok (), s') => ((.ok (), s') : Except ε Unit × σ)
    | (.error e, _) => (.error e, s)) = _
  rw [h]

/-! ## The function a computation computes -/

/-- Run on `s`, the computation returns what `r` says, and leaves the state of `r` when `r` is not
an error. -/
def Computes (m : InPlace σ ε Unit) (s : σ) (r : Except ε σ) : Prop :=
  match r with
  | .ok s' => m.exec s = (.ok (), s')
  | .error e => ∃ s', m.exec s = (.error e, s')

namespace Computes

variable {r : Except ε σ}

theorem of_exec (heq : m.exec s = m'.exec s') (h : Computes m' s' r) : Computes m s r := by
  unfold Computes at h ⊢
  rw [heq]
  exact h

theorem pure (s : σ) : Computes (Pure.pure () : InPlace σ ε Unit) s (Pure.pure s) := rfl

theorem write (f : σ → σ) : Computes (InPlace.write f : InPlace σ ε Unit) s (Pure.pure (f s)) :=
  rfl

theorem throw (e : ε) : Computes (MonadExcept.throw e : InPlace σ ε Unit) s (.error e) := ⟨s, rfl⟩

theorem write_bind {f : σ → σ} (h : Computes (k ()) (f s) r) :
    Computes (InPlace.write f >>= k) s r := h

theorem inspect {k : α → InPlace σ ε Unit} (h : ∀ a, f s = .ok a → Computes (k a) s (g a)) :
    Computes (InPlace.inspect f >>= k) s (f s >>= g) := by
  cases hf : f s with
  | error e => exact ⟨s, exec_inspect_error hf k⟩
  | ok a => exact of_exec (exec_inspect_ok hf k) (h a hf)

theorem check {k : α → InPlace σ ε Unit} (h : ∀ a, x = .ok a → Computes (k a) s (g a)) :
    Computes (InPlace.check x >>= k) s (x >>= g) :=
  inspect h

/-- Read a value that is always there. -/
theorem get {f : σ → α} {k : α → InPlace σ ε Unit} (h : Computes (k (f s)) s r) :
    Computes (InPlace.inspect (fun s => .ok (f s)) >>= k) s r := h

theorem bind {g : σ → Except ε σ} (hm : Computes m s r)
    (h : ∀ s', r = .ok s' → Computes (k ()) s' (g s')) : Computes (m >>= k) s (r >>= g) := by
  cases r with
  | error e =>
    obtain ⟨s', hs'⟩ := hm
    exact ⟨s', exec_bind_error hs' k⟩
  | ok s' => exact of_exec (exec_bind_ok hm k) (h s' rfl)

theorem ite {c : Prop} [Decidable c] {r' : Except ε σ} (h : c → Computes m s r)
    (h' : ¬c → Computes m' s r') : Computes (if c then m else m') s (if c then r else r') := by
  by_cases hc : c
  · rw [if_pos hc, if_pos hc]
    exact h hc
  · rw [if_neg hc, if_neg hc]
    exact h' hc

theorem forM {m : α → InPlace σ ε Unit} {f : σ → α → Except ε σ}
    (h : ∀ a s, Computes (m a) s (f s a)) (l : List α) (s : σ) :
    Computes (l.forM m) s (l.foldlM f s) := by
  induction l generalizing s with
  | nil => exact pure s
  | cons a l ih =>
    rw [List.foldlM_cons]
    exact bind (h a s) fun s' _ => ih s'

theorem within {t : τ} {put : τ → σ → σ} {m : InPlace τ ε Unit} {x : Except ε τ}
    {g : τ → Except ε σ} (hm : Computes m t x)
    (h : ∀ t', x = .ok t' → Computes (k ()) (put t' s) (g t')) :
    Computes (InPlace.within t put m >>= k) s (x >>= g) := by
  cases x with
  | error e =>
    obtain ⟨t', ht'⟩ := hm
    exact ⟨put t' s, exec_bind_error (by rw [exec_within, ht']) k⟩
  | ok t' =>
    have hm : m.exec t = (.ok (), t') := hm
    exact of_exec (exec_bind_ok (by rw [exec_within, hm]) k) (h t' rfl)

/-- On a copy, the function is computed and committed. -/
theorem onCopy (h : Computes m s r) : m.onCopy.exec s = committed s r := by
  cases r with
  | ok s' => exact exec_onCopy_ok h
  | error e =>
    obtain ⟨s', hs'⟩ := h
    exact exec_onCopy_error hs'

end Computes

/-! ## Checks before the first write -/

/-- On `s` the computation makes the checks `x`, which write nothing, and then goes on as `k`. -/
def Guarded (m : InPlace σ ε α) (s : σ) (x : Except ε Unit) (k : InPlace σ ε α) : Prop :=
  match x with
  | .ok () => m.exec s = k.exec s
  | .error e => m.exec s = (.error e, s)

namespace Guarded

theorem last (x : Except ε Unit) (k : Unit → InPlace σ ε α) :
    Guarded (InPlace.check x >>= k) s x (k ()) := by
  cases x with
  | error e => exact exec_inspect_error (f := fun _ => .error e) rfl k
  | ok u => exact exec_inspect_ok (f := fun _ => .ok u) rfl k

theorem inspect {f : σ → Except ε β} {k : β → InPlace σ ε α} {g : β → Except ε Unit}
    {m : InPlace σ ε α} (h : ∀ b, f s = .ok b → Guarded (k b) s (g b) m) :
    Guarded (InPlace.inspect f >>= k) s (f s >>= g) m := by
  cases hf : f s with
  | error e => exact exec_inspect_error hf k
  | ok b =>
    have hb := h b hf
    unfold Guarded at hb ⊢
    rw [exec_inspect_ok hf]
    exact hb

theorem check {x : Except ε β} {k : β → InPlace σ ε α} {g : β → Except ε Unit}
    {m : InPlace σ ε α} (h : ∀ b, x = .ok b → Guarded (k b) s (g b) m) :
    Guarded (InPlace.check x >>= k) s (x >>= g) m := inspect h

end Guarded

/-! ## Atomic computations -/

/-- An error leaves the state as it was. -/
def Atomic (m : InPlace σ ε α) (s : σ) : Prop := ∀ e, (m.exec s).1 = .error e → (m.exec s).2 = s

namespace Atomic

theorem write (f : σ → σ) : Atomic (InPlace.write f : InPlace σ ε Unit) s := nofun

theorem of_ok {m : InPlace σ ε α} (h : (m.exec s).1 = .ok a) : Atomic m s := by
  intro e he
  rw [h] at he
  cases he

theorem inspect {k : α → InPlace σ ε β} (h : ∀ a, f s = .ok a → Atomic (k a) s) :
    Atomic (InPlace.inspect f >>= k) s := by
  intro e he
  cases hf : f s with
  | error e' => rw [exec_inspect_error hf]
  | ok a =>
    rw [exec_inspect_ok hf] at he ⊢
    exact h a hf e he

theorem check {k : α → InPlace σ ε β} (h : ∀ a, x = .ok a → Atomic (k a) s) :
    Atomic (InPlace.check x >>= k) s := inspect h

theorem ite {c : Prop} [Decidable c] {m m' : InPlace σ ε α} (h : Atomic m s) (h' : Atomic m' s) :
    Atomic (if c then m else m') s := by
  by_cases hc : c
  · rw [if_pos hc]; exact h
  · rw [if_neg hc]; exact h'

theorem onCopy (m : InPlace σ ε Unit) (s : σ) : Atomic m.onCopy s := by
  intro e he
  cases hrun : m.exec s with
  | mk x s' =>
    cases x with
    | ok u =>
      rw [exec_onCopy_ok hrun] at he
      cases he
    | error e' => rw [exec_onCopy_error hrun]

/-- An atomic computation commits what it computes. -/
theorem exec_eq {r : Except ε σ} (ha : Atomic m s) (h : Computes m s r) :
    m.exec s = committed s r := by
  cases r with
  | ok s' => exact h
  | error e =>
    obtain ⟨s', hs'⟩ := h
    have herror : (m.exec s).1 = .error e := by rw [hs']
    exact Prod.ext herror (ha e herror)

end Atomic

end InPlace

end Moonglass.Lib
