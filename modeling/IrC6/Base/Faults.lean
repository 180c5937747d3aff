/-!
# Computations that may fault

A computation in steps yields a result when each of its steps does.  `Avoids` says of
a computation that it does not end in one fault and what its results are like, and is
put together from the steps.  `Ends` says the same of a recursion that is given its depth.
-/

namespace IrC6

variable {ε α β : Type}

theorem exists_of_bind_eq_ok {x : Except ε α} {f : α → Except ε β} {b : β}
    (h : x >>= f = .ok b) : ∃ a, x = .ok a ∧ f a = .ok b := by
  cases x with
  | error e => cases h
  | ok a => exact ⟨a, rfl, h⟩

theorem ok_ne_error {a : α} {e : ε} : (.ok a : Except ε α) ≠ .error e := by
  intro h
  cases h

/-- A computation does not end in the fault `e`, and its results have a property. -/
def Avoids (e : ε) (P : α → Prop) : Except ε α → Prop
  | .ok a => P a
  | .error e' => e' ≠ e

variable {e : ε} {P : α → Prop} {Q : β → Prop}

theorem Avoids.ok {a : α} (h : P a) : Avoids e P (.ok a) := h

theorem Avoids.error {e' : ε} (h : e' ≠ e) : Avoids e P (.error e') := h

theorem Avoids.ne_error {x : Except ε α} (hx : Avoids e P x) : x ≠ .error e := by
  rintro rfl
  exact hx rfl

theorem Avoids.of_eq_ok {x : Except ε α} (hx : Avoids e P x) {a : α} (h : x = .ok a) : P a := by
  subst h
  exact hx

theorem Avoids.bind {x : Except ε α} (hx : Avoids e P x) {f : α → Except ε β}
    (hf : ∀ a, x = .ok a → P a → Avoids e Q (f a)) : Avoids e Q (x >>= f) := by
  cases x with
  | error e' => exact hx
  | ok a => exact hf a rfl hx

/-- A computation ends in a result with a property, or in the fault `e`. -/
def Yields (e : ε) (P : α → Prop) : Except ε α → Prop
  | .ok a => P a
  | .error e' => e' = e

theorem Yields.of_eq_ok {x : Except ε α} (hx : Yields e P x) {a : α} (h : x = .ok a) : P a := by
  subst h
  exact hx

theorem Yields.ne_error {x : Except ε α} (hx : Yields e P x) {e' : ε} (he : e' ≠ e) :
    x ≠ .error e' := by
  rintro rfl
  exact he hx

theorem Yields.map {x : Except ε α} (hx : Yields e P x) {f : α → β} (hf : ∀ a, P a → Q (f a)) :
    Yields e Q (x.map f) := by
  cases x with
  | error e' => exact hx
  | ok a => exact hf a hx

theorem Yields.bind {x : Except ε α} (hx : Yields e P x) {f : α → Except ε β}
    (hf : ∀ a, P a → Yields e Q (f a)) : Yields e Q (x >>= f) := by
  cases x with
  | error e' => exact hx
  | ok a => exact hf a hx

/-! ## Depth -/

theorem bind_ne_error {x : Except ε α} (hx : x ≠ .error e) {f : α → Except ε β}
    (hf : ∀ a, x = .ok a → f a ≠ .error e) : x >>= f ≠ .error e := by
  cases x with
  | error e' => exact fun herr => hx (congrArg Except.error (Except.error.inj herr))
  | ok a => exact hf a rfl

/-- With enough depth the computation does not end in the fault `e`. -/
def Ends (e : ε) (f : Nat → Except ε α) : Prop := ∃ d, ∀ depth ≥ d, f depth ≠ .error e

theorem Ends.const {x : Except ε α} (hx : x ≠ .error e) : Ends e fun _ => x := ⟨0, fun _ _ => hx⟩

/-- What follows needs no depth. -/
theorem Ends.bind {f : Nat → Except ε α} (hf : Ends e f) {k : α → Except ε β}
    (hk : ∀ a, k a ≠ .error e) : Ends e fun depth => f depth >>= k := by
  obtain ⟨d, hd⟩ := hf
  exact ⟨d, fun depth hdepth => bind_ne_error (hd depth hdepth) fun a _ => hk a⟩

/-- What comes first needs no depth. -/
theorem Ends.after {x : Except ε α} (hx : x ≠ .error e) {g : Nat → α → Except ε β}
    (hg : ∀ a, x = .ok a → Ends e fun depth => g depth a) : Ends e fun depth => x >>= g depth := by
  cases x with
  | error e' => exact .const fun herr => hx (congrArg Except.error (Except.error.inj herr))
  | ok a => exact hg a rfl

end IrC6
