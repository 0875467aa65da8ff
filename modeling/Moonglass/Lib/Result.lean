import Mathlib.Data.List.Basic

/-
  Fallible computations. Source code that returns early with an error is written with `ensure`
  and `okOr` inside a `do` block over `Except`, so a successful run is taken apart by
  `bind_eq_ok`, `ensure_eq_ok` and `okOr_eq_ok` alone. Loops are `List.foldlM`; `foldlM_inv`
  carries an invariant along one and `foldlM_rel` a relation between its first and last state.
  `Ensures x P` is the postcondition `P` of a computation, with one rule per way to build one.
-/

namespace Moonglass.Lib

variable {ε ε' α β γ : Type}
variable {x : Except ε α} {f : α → Except ε β} {b c : β} {e : ε} {p : Prop} {o : Option α} {a : α}
  {l : List α} {R : β → β → Prop}

/-- Continue when `p` holds and fail with `e` otherwise. -/
def ensure (p : Prop) [Decidable p] (e : ε) : Except ε Unit :=
  if p then .ok () else .error e

/-- The value of an option, or the error `e` when there is none. -/
def okOr (o : Option α) (e : ε) : Except ε α :=
  match o with
  | some a => .ok a
  | none => .error e

/-- Convert the error of a result, as the `?` operator does. -/
def liftErr (f : ε → ε') (x : Except ε α) : Except ε' α :=
  match x with
  | .ok a => .ok a
  | .error e => .error (f e)

@[simp] theorem bind_eq_ok : (x >>= f) = .ok b ↔ ∃ a, x = .ok a ∧ f a = .ok b := by
  cases x <;> simp [bind, Except.bind]

theorem bind_eq_error : (x >>= f) = .error e ↔ x = .error e ∨ ∃ a, x = .ok a ∧ f a = .error e := by
  cases x <;> simp [bind, Except.bind]

@[simp] theorem ok_bind (a : α) (f : α → Except ε β) : (Except.ok a >>= f) = f a := rfl

@[simp] theorem error_bind (e : ε) (f : α → Except ε β) :
    (Except.error e >>= f) = .error e := rfl

@[simp] theorem pure_eq_ok (a : α) : (pure a : Except ε α) = .ok a := rfl

@[simp] theorem ensure_eq_ok [Decidable p] {u : Unit} : ensure p e = .ok u ↔ p := by
  unfold ensure; split <;> simp_all

theorem ensure_of [Decidable p] (h : p) (e : ε) : ensure p e = .ok () := if_pos h

theorem ensure_of_not [Decidable p] (h : ¬p) (e : ε) : ensure p e = .error e :=
  if_neg h

@[simp] theorem okOr_eq_ok : okOr o e = .ok a ↔ o = some a := by
  cases o <;> simp [okOr]

@[simp] theorem okOr_some (a : α) (e : ε) : okOr (some a) e = .ok a := rfl

@[simp] theorem okOr_none (e : ε) : okOr (none : Option α) e = .error e := rfl

@[simp] theorem liftErr_eq_ok {f : ε → ε'} : liftErr f x = .ok a ↔ x = .ok a := by
  cases x <;> simp [liftErr]

theorem exists_ok_of_isOk (h : x.isOk = true) : ∃ a, x = .ok a := by
  cases x with
  | error e => cases h
  | ok a => exact ⟨a, rfl⟩

/-- Either a result is a value or it is an error. -/
theorem ok_or_error (x : Except ε α) : (∃ a, x = .ok a) ∨ ∃ e, x = .error e := by
  cases x with
  | ok a => exact .inl ⟨a, rfl⟩
  | error e => exact .inr ⟨e, rfl⟩

/-! ## Loops -/

section

variable {f : β → α → Except ε β}

theorem foldlM_cons_eq_ok :
    (a :: l).foldlM f b = .ok c ↔ ∃ b', f b a = .ok b' ∧ l.foldlM f b' = .ok c := by
  rw [List.foldlM_cons, bind_eq_ok]

@[simp] theorem foldlM_nil_eq_ok :
    ([] : List α).foldlM f b = .ok c ↔ b = c := by
  simp

/-- A property kept by every step of a loop that succeeds holds of its last state. -/
theorem foldlM_inv (P : β → Prop) (step : ∀ a ∈ l, ∀ s s', P s → f s a = .ok s' → P s') (hb : P b)
    (h : l.foldlM f b = .ok c) : P c := by
  induction l generalizing b with
  | nil => rw [foldlM_nil_eq_ok] at h; exact h ▸ hb
  | cons a l ih =>
    obtain ⟨b', hb', hl⟩ := foldlM_cons_eq_ok.1 h
    exact ih (fun x hx => step x (List.mem_cons_of_mem _ hx))
      (step a List.mem_cons_self b b' hb hb') hl

/-- A reflexive and transitive relation kept by every step relates the first and last state. -/
theorem foldlM_rel (R : β → β → Prop) (refl : ∀ b, R b b) (trans : ∀ {a b c}, R a b → R b c → R a c)
    (step : ∀ a ∈ l, ∀ s s', f s a = .ok s' → R s s') (h : l.foldlM f b = .ok c) : R b c :=
  foldlM_inv (R b) (fun a ha s s' hs hf => trans hs (step a ha s s' hf)) (refl b) h

/-- Every step of a loop that succeeds has succeeded. -/
theorem foldlM_step_ok (h : l.foldlM f b = .ok c) (ha : a ∈ l) : ∃ s s', f s a = .ok s' := by
  induction l generalizing b with
  | nil => cases ha
  | cons a' l ih =>
    obtain ⟨b', hb', hl⟩ := foldlM_cons_eq_ok.1 h
    rcases List.mem_cons.1 ha with rfl | ha
    · exact ⟨b, b', hb'⟩
    · exact ih hl ha

/-- A loop whose steps all succeed, from any state with the invariant, succeeds. -/
theorem foldlM_ok (P : β → Prop)
    (step : ∀ a ∈ l, ∀ s, P s → ∃ s', f s a = .ok s' ∧ P s') (hb : P b) :
    ∃ c, l.foldlM f b = .ok c ∧ P c := by
  induction l generalizing b with
  | nil => exact ⟨b, rfl, hb⟩
  | cons a l ih =>
    obtain ⟨b', hf, hb'⟩ := step a List.mem_cons_self b hb
    obtain ⟨c, hc, hPc⟩ := ih (fun x hx => step x (List.mem_cons_of_mem _ hx)) hb'
    exact ⟨c, foldlM_cons_eq_ok.2 ⟨b', hf, hc⟩, hPc⟩

/-- A loop whose steps succeed with the values of a pure step is the pure loop. -/
theorem foldlM_eq_foldl {g : β → α → β} (P : β → Prop)
    (step : ∀ a ∈ l, ∀ s, P s → f s a = .ok (g s a) ∧ P (g s a)) (hb : P b) :
    l.foldlM f b = .ok (l.foldl g b) := by
  induction l generalizing b with
  | nil => rfl
  | cons a l ih =>
    obtain ⟨hf, hg⟩ := step a List.mem_cons_self b hb
    exact foldlM_cons_eq_ok.2 ⟨g b a, hf, ih (fun x hx => step x (List.mem_cons_of_mem _ hx)) hg⟩

/-- The rule for a loop over the numbers below `n`. -/
theorem foldlM_range {f : β → Nat → Except ε β} {P : Nat → β → Prop} {n : Nat}
    (step : ∀ i < n, ∀ s s', P i s → f s i = .ok s' → P (i + 1) s') (hb : P 0 b)
    (h : (List.range n).foldlM f b = .ok c) : P n c := by
  induction n generalizing c with
  | zero =>
    rw [List.range_zero, foldlM_nil_eq_ok] at h
    exact h ▸ hb
  | succ n ih =>
    rw [List.range_succ, List.foldlM_append] at h
    obtain ⟨s, hs, h⟩ := bind_eq_ok.1 h
    obtain ⟨s', hs', h⟩ := foldlM_cons_eq_ok.1 h
    rw [foldlM_nil_eq_ok] at h
    have hP := ih (fun i hi => step i (Nat.lt_succ_of_lt hi)) hs
    exact h ▸ step n (Nat.lt_succ_self n) s s' hP hs'

end

theorem mapM_eq_map {g : α → β} (step : ∀ a ∈ l, f a = .ok (g a)) : l.mapM f = .ok (l.map g) := by
  induction l with
  | nil => rfl
  | cons a l ih =>
    rw [List.mapM_cons, step a List.mem_cons_self,
      ih fun x hx => step x (List.mem_cons_of_mem _ hx)]
    rfl

theorem mapM_congr {g : α → Except ε β} (h : ∀ a ∈ l, f a = g a) : l.mapM f = l.mapM g := by
  induction l with
  | nil => rfl
  | cons a l ih =>
    rw [List.mapM_cons, List.mapM_cons, h a List.mem_cons_self,
      ih fun x hx => h x (List.mem_cons_of_mem _ hx)]

theorem mapM_cons_eq_ok {cs : List β} :
    (a :: l).mapM f = .ok cs ↔ ∃ b bs, f a = .ok b ∧ l.mapM f = .ok bs ∧ cs = b :: bs := by
  rw [List.mapM_cons, bind_eq_ok]
  constructor
  · rintro ⟨b, hb, h⟩
    obtain ⟨bs, hbs, h⟩ := bind_eq_ok.1 h
    exact ⟨b, bs, hb, hbs, (Except.ok.inj h).symm⟩
  · rintro ⟨b, bs, hb, hbs, rfl⟩
    exact ⟨b, hb, bind_eq_ok.2 ⟨bs, hbs, rfl⟩⟩

/-- Each place of the list gives the result at that place. -/
theorem getElem?_of_mapM {bs : List β} (h : l.mapM f = .ok bs) {k : Nat} (ha : l[k]? = some a) :
    ∃ b, bs[k]? = some b ∧ f a = .ok b := by
  induction l generalizing bs k with
  | nil => cases ha
  | cons x l ih =>
    obtain ⟨b, tail, hb, htail, rfl⟩ := mapM_cons_eq_ok.1 h
    cases k with
    | zero =>
      cases ha
      exact ⟨b, rfl, hb⟩
    | succ k => exact ih htail ha

/-- A loop over a list that a step can end early. -/
def foldBreakM (f : β → α → Except ε (ForInStep β)) : β → List α → Except ε β
  | b, [] => .ok b
  | b, a :: l => do
    match ← f b a with
    | .yield b' => foldBreakM f b' l
    | .done b' => pure b'

/-- A loop that ends with the first entry that satisfies `p`. -/
theorem foldBreakM_find {γ : Type} {f : Option γ → α → Except ε (ForInStep (Option γ))} {g : α → γ}
    {p : α → Bool}
    (step : ∀ b, ∀ a ∈ l, f b a = .ok (if p a then .done (some (g a)) else .yield none)) :
    foldBreakM f none l = .ok ((l.find? p).map g) := by
  induction l with
  | nil => rfl
  | cons a l ih =>
    rw [foldBreakM, step none a List.mem_cons_self, ok_bind]
    cases hp : p a with
    | true =>
      rw [List.find?_cons_of_pos hp]
      rfl
    | false =>
      rw [List.find?_cons_of_neg (by simp [hp])]
      exact ih fun b x hx => step b x (List.mem_cons_of_mem _ hx)

/-! ## Postconditions -/

/-- Whatever `x` returns satisfies `P`. -/
def Ensures (x : Except ε α) (P : α → Prop) : Prop := ∀ a, x = .ok a → P a

namespace Ensures

variable {P : β → Prop}

theorem pure (h : P b) : Ensures (Pure.pure b : Except ε β) P := by
  intro b' hb
  cases hb
  exact h

theorem error (e : ε) : Ensures (.error e : Except ε β) P := by
  intro b hb
  cases hb

theorem bind {Q : α → Prop} (hx : Ensures x Q) (hf : ∀ a, Q a → Ensures (f a) P) :
    Ensures (x >>= f) P := by
  intro b hb
  obtain ⟨a, ha, hfa⟩ := bind_eq_ok.1 hb
  exact hf a (hx a ha) b hfa

/-- The rule for a step whose result does not matter. -/
theorem skip (hf : ∀ a, Ensures (f a) P) :
    Ensures (x >>= f) P := bind (Q := fun _ => True) (fun _ _ => trivial) fun a _ => hf a

/-- The rule for a step whose result is known only as such. -/
theorem step (hf : ∀ a, x = .ok a → Ensures (f a) P) : Ensures (x >>= f) P := bind (fun _ h => h) hf

theorem lookup (hf : ∀ a, o = some a → Ensures (f a) P) : Ensures (okOr o e >>= f) P :=
  bind (fun _ h => okOr_eq_ok.1 h) hf

/-- The rule for a lookup of which only `Q` is to be known. -/
theorem found {Q : α → Prop} (hQ : ∀ {a}, o = some a → Q a) (hf : ∀ a, Q a → Ensures (f a) P) :
    Ensures (okOr o e >>= f) P := lookup fun a h => hf a (hQ h)

theorem guard [Decidable p] {f : Unit → Except ε β} (hf : p → Ensures (f ()) P) :
    Ensures (ensure p e >>= f) P := step fun _ h => hf (ensure_eq_ok.1 h)

/-- The rule for a branch whose condition matters. -/
theorem dite {c : Prop} [Decidable c] {x y : Except ε β} (hx : c → Ensures x P)
    (hy : ¬c → Ensures y P) : Ensures (if c then x else y) P := by
  by_cases h : c
  · rw [if_pos h]; exact hx h
  · rw [if_neg h]; exact hy h

theorem ite {c : Prop} [Decidable c] {x y : Except ε β} (hx : Ensures x P) (hy : Ensures y P) :
    Ensures (if c then x else y) P := dite (fun _ => hx) fun _ => hy

theorem imp {x : Except ε β} {Q : β → Prop} (hx : Ensures x Q) (h : ∀ b, Q b → P b) :
    Ensures x P := fun b hb => h b (hx b hb)

theorem foldlM {f : β → α → Except ε β} (step : ∀ a b, P b → Ensures (f b a) P) (hb : P b) :
    Ensures (l.foldlM f b) P :=
  fun _ h => foldlM_inv P (fun a _ s s' hs hf => step a s hs s' hf) hb h

/-- A step and the rest, for a relation to the first state that composes. -/
theorem rel_bind (trans : ∀ {a b c}, R a b → R b c → R a c) {x : Except ε β} {f : β → Except ε β}
    (hx : Ensures x (R b)) (hf : ∀ c, Ensures (f c) (R c)) : Ensures (x >>= f) (R b) :=
  bind hx fun c hc => (hf c).imp fun _ h => trans hc h

theorem rel_foldlM (refl : ∀ b, R b b) (trans : ∀ {a b c}, R a b → R b c → R a c)
    {f : β → α → Except ε β} (step : ∀ a b, Ensures (f b a) (R b)) : Ensures (l.foldlM f b) (R b) :=
  foldlM (fun a c hc => (step a c).imp fun _ h => trans hc h) (refl b)

theorem mapM (step : ∀ a ∈ l, Ensures (f a) P) : Ensures (l.mapM f) fun bs => ∀ b ∈ bs, P b := by
  induction l with
  | nil => exact pure (by simp)
  | cons a l ih =>
    rw [List.mapM_cons]
    refine bind (step a List.mem_cons_self) fun b hb => ?_
    refine bind (ih fun a ha => step a (.tail _ ha)) fun bs hbs => pure ?_
    exact List.forall_mem_cons.2 ⟨hb, hbs⟩

/-- A property kept by every step holds when the loop ends, early or not. -/
theorem foldBreakM {f : β → α → Except ε (ForInStep β)}
    (step : ∀ a b, P b → Ensures (f b a) fun r => P r.value) (hb : P b) :
    Ensures (Lib.foldBreakM f b l) P := by
  induction l generalizing b with
  | nil => exact pure hb
  | cons a l ih =>
    refine bind (step a b hb) fun r hr => ?_
    cases r with
    | done b' => exact pure hr
    | yield b' => exact ih hr

end Ensures

section

variable {f : β → α → Except ε (ForInStep β)} {P : List α → β → Prop} {Q : List α → α → β → Prop}

/-- What a step does to a loop that has gone through `seen`: it goes on after `a`, or ends at it. -/
def Cut (P : List α → β → Prop) (Q : List α → α → β → Prop) (seen : List α) (a : α) :
    ForInStep β → Prop
  | .yield b => P (seen ++ [a]) b
  | .done b => Q seen a b

/-- Where a loop that may end early ends: past the whole list, or at an entry that stops it. A step
knows where in the list it is. -/
theorem Ensures.foldBreakM_split
    (step : ∀ seen a rest, l = seen ++ a :: rest → ∀ b, P seen b → Ensures (f b a) (Cut P Q seen a))
    (hb : P [] b) :
    Ensures (Lib.foldBreakM f b l) fun c =>
      P l c ∨ ∃ seen a rest, l = seen ++ a :: rest ∧ Q seen a c := by
  -- on the rest of the list, for any part already gone through
  have aux : ∀ (l' before : List α) (b : β), before ++ l' = l → P before b →
      Ensures (Lib.foldBreakM f b l') fun c =>
        P l c ∨ ∃ seen a rest, l = seen ++ a :: rest ∧ Q seen a c := by
    intro l'
    induction l' with
    | nil =>
      intro before b hl hb
      rw [List.append_nil] at hl
      exact .pure (.inl (hl ▸ hb))
    | cons a l' ih =>
      intro before b hl hb
      refine .bind (step before a l' hl.symm b hb) fun r hP => ?_
      cases r with
      | done b' => exact .pure (.inr ⟨before, a, l', hl.symm, hP⟩)
      | yield b' =>
        refine ih (before ++ [a]) b' ?_ hP
        rw [List.append_assoc, List.singleton_append, hl]
  exact aux l [] b rfl hb

/-- The same for a step that need not know where in the list it is. -/
theorem Ensures.foldBreakM_cut
    (step : ∀ seen, ∀ a ∈ l, ∀ b, P seen b → Ensures (f b a) (Cut P Q seen a)) (hb : P [] b) :
    Ensures (Lib.foldBreakM f b l) fun c =>
      P l c ∨ ∃ seen a rest, l = seen ++ a :: rest ∧ Q seen a c :=
  foldBreakM_split (fun seen a _ hl =>
    step seen a (hl ▸ List.mem_append_right seen List.mem_cons_self)) hb

/-- The entry `a` is added to those a loop has gone through when the loop goes on after it. -/
def Advanced (P : List α → β → Prop) (seen : List α) (a : α) : ForInStep β → Prop
  | .yield b => P (seen ++ [a]) b
  | .done b => P seen b

/-- The rule for a loop that may end early, with the part of the list it has gone through. -/
theorem Ensures.foldBreakM_seen
    (step : ∀ seen, ∀ a ∈ l, ∀ b, P seen b → Ensures (f b a) (Advanced P seen a)) (hb : P [] b) :
    Ensures (Lib.foldBreakM f b l) fun c => ∃ seen, seen <+: l ∧ P seen c := by
  refine (foldBreakM_cut (Q := fun seen _ b => P seen b) (fun seen a ha b hP =>
    (step seen a ha b hP).imp fun r hr => by cases r <;> exact hr) hb).imp ?_
  rintro c (hP | ⟨seen, a, rest, rfl, hP⟩)
  · exact ⟨l, List.prefix_rfl, hP⟩
  · exact ⟨seen, List.prefix_append seen _, hP⟩

end

/-! ## Errors -/

/-- Whatever error `x` ends with satisfies `P`. -/
def Fails (x : Except ε α) (P : ε → Prop) : Prop := ∀ e, x = .error e → P e

section

variable {P : ε → Prop}

@[simp] theorem fails_ok (a : α) : Fails (.ok a : Except ε α) P := by
  intro e he
  cases he

@[simp] theorem fails_pure (a : α) : Fails (Pure.pure a : Except ε α) P := fails_ok a

@[simp] theorem fails_error : Fails (.error e : Except ε α) P ↔ P e :=
  ⟨fun h => h e rfl, fun h _ he => Except.error.inj he ▸ h⟩

@[simp] theorem fails_bind : Fails (x >>= f) P ↔ Fails x P ∧ ∀ a, x = .ok a → Fails (f a) P := by
  cases x with
  | error e =>
    rw [error_bind, fails_error, fails_error]
    exact ⟨fun h => ⟨h, fun a ha => by cases ha⟩, fun h => h.1⟩
  | ok a =>
    refine ⟨fun h => ⟨fails_ok a, fun b hb => Except.ok.inj hb ▸ h⟩, fun h => h.2 a rfl⟩

@[simp] theorem fails_ite {c : Prop} [Decidable c] {y : Except ε α} :
    Fails (if c then x else y) P ↔ (c → Fails x P) ∧ (¬c → Fails y P) := by
  by_cases h : c <;> simp [h]

@[simp] theorem fails_ensure [Decidable p] : Fails (ensure p e) P ↔ (¬p → P e) := by
  unfold ensure
  by_cases h : p <;> simp [h]

@[simp] theorem fails_okOr : Fails (okOr o e) P ↔ (o = none → P e) := by
  unfold okOr
  cases o <;> simp

namespace Fails

/-- The rule for a step whose result is known to satisfy `Q`. -/
theorem bind {Q : α → Prop} (hx : Fails x P) (hQ : Ensures x Q) (hf : ∀ a, Q a → Fails (f a) P) :
    Fails (x >>= f) P :=
  fails_bind.2 ⟨hx, fun a ha => hf a (hQ a ha)⟩

theorem skip (hx : Fails x P) (hf : ∀ a, Fails (f a) P) :
    Fails (x >>= f) P := fails_bind.2 ⟨hx, fun a _ => hf a⟩

theorem lookup (he : P e) (hf : ∀ a, o = some a → Fails (f a) P) : Fails (okOr o e >>= f) P :=
  bind (fails_okOr.2 fun _ => he) (fun _ h => okOr_eq_ok.1 h) hf

theorem ite {c : Prop} [Decidable c] {y : Except ε α} (hx : Fails x P) (hy : Fails y P) :
    Fails (if c then x else y) P := fails_ite.2 ⟨fun _ => hx, fun _ => hy⟩

theorem foldlM {f : β → α → Except ε β} {Q : β → Prop}
    (step : ∀ b, ∀ a ∈ l, Q b → Fails (f b a) P ∧ Ensures (f b a) Q) (hb : Q b) :
    Fails (l.foldlM f b) P := by
  induction l generalizing b with
  | nil => exact fails_ok b
  | cons a l ih =>
    obtain ⟨hfails, hkeeps⟩ := step b a List.mem_cons_self hb
    exact hfails.bind hkeeps fun b' hb' => ih (fun b a ha => step b a (.tail _ ha)) hb'

theorem foldlM_each {f : β → α → Except ε β} (step : ∀ b, ∀ a ∈ l, Fails (f b a) P) :
    Fails (l.foldlM f b) P :=
  foldlM (Q := fun _ => True) (fun b a ha _ => ⟨step b a ha, fun _ _ => trivial⟩) trivial

theorem mapM (step : ∀ a ∈ l, Fails (f a) P) : Fails (l.mapM f) P := by
  induction l with
  | nil => exact fails_ok _
  | cons a l ih =>
    rw [List.mapM_cons]
    refine (step a List.mem_cons_self).skip fun b => ?_
    exact (ih fun a ha => step a (.tail _ ha)).skip fun _ => fails_ok _

theorem forM {f : α → Except ε PUnit} (step : ∀ a ∈ l, Fails (f a) P) :
    Fails (ForM.forM l f) P := by
  induction l with
  | nil => exact fails_ok _
  | cons a l ih =>
    rw [List.forM_cons]
    exact (step a List.mem_cons_self).skip fun _ => ih fun a ha => step a (.tail _ ha)

theorem foldBreakM {f : β → α → Except ε (ForInStep β)} {Q : β → Prop}
    (step : ∀ b, ∀ a ∈ l, Q b → Fails (f b a) P ∧ Ensures (f b a) fun r => Q r.value) (hb : Q b) :
    Fails (Lib.foldBreakM f b l) P := by
  induction l generalizing b with
  | nil => exact fails_ok b
  | cons a l ih =>
    obtain ⟨hfails, hkeeps⟩ := step b a List.mem_cons_self hb
    refine hfails.bind hkeeps fun r hr => ?_
    cases r with
    | done b' => exact fails_pure b'
    | yield b' => exact ih (fun b a ha => step b a (.tail _ ha)) hr

theorem foldBreakM_each {f : β → α → Except ε (ForInStep β)} {l : List α} {b : β}
    (step : ∀ b, ∀ a ∈ l, Fails (f b a) P) : Fails (Lib.foldBreakM f b l) P :=
  foldBreakM (Q := fun _ => True) (fun b a ha _ => ⟨step b a ha, fun _ _ => trivial⟩) trivial

end Fails

/-- `x` returns a value that satisfies `Q` or ends with an error that satisfies `P`. -/
def Ends (x : Except ε α) (P : ε → Prop) (Q : α → Prop) : Prop := Fails x P ∧ Ensures x Q

namespace Ends

variable {Q : β → Prop}

theorem pure (h : Q b) : Ends (Pure.pure b : Except ε β) P Q := ⟨fails_pure b, .pure h⟩

theorem bind {R : α → Prop} (hx : Ends x P R) (hf : ∀ a, R a → Ends (f a) P Q) :
    Ends (x >>= f) P Q :=
  ⟨hx.1.bind hx.2 fun a ha => (hf a ha).1, hx.2.bind fun a ha => (hf a ha).2⟩

theorem skip (hx : Fails x P) (hf : ∀ a, Ends (f a) P Q) :
    Ends (x >>= f) P Q := ⟨hx.skip fun a => (hf a).1, .skip fun a => (hf a).2⟩

theorem ite {c : Prop} [Decidable c] {x y : Except ε β} (hx : Ends x P Q) (hy : Ends y P Q) :
    Ends (if c then x else y) P Q := ⟨fails_ite.2 ⟨fun _ => hx.1, fun _ => hy.1⟩, .ite hx.2 hy.2⟩

theorem foldlM {f : β → α → Except ε β} (step : ∀ b, ∀ a ∈ l, Q b → Ends (f b a) P Q) (hb : Q b) :
    Ends (l.foldlM f b) P Q :=
  ⟨.foldlM step hb, fun _ h => foldlM_inv Q (fun a ha b b' hb h => (step b a ha hb).2 b' h) hb h⟩

end Ends

end

end Moonglass.Lib
