/-! Steps that may fail, one after another: what a fault or a result of the whole says about
the first step and the rest. -/

namespace WireSchema.Outcome

variable {ε α β γ : Type}

@[simp] theorem ok_bind (a : α) (f : α → Except ε β) : (Except.ok a >>= f) = f a := rfl

@[simp] theorem error_bind (e : ε) (f : α → Except ε β) : (Except.error e >>= f) = .error e := rfl

theorem bind_eq_ok {x : Except ε α} {f : α → Except ε β} {b : β} :
    x >>= f = .ok b ↔ ∃ a, x = .ok a ∧ f a = .ok b := by
  cases x with
  | error e => simp
  | ok a => simp

theorem bind_eq_error {x : Except ε α} {f : α → Except ε β} {e : ε} :
    x >>= f = .error e ↔ x = .error e ∨ ∃ a, x = .ok a ∧ f a = .error e := by
  cases x with
  | error e' => simp
  | ok a => simp

@[simp] theorem map_bind (x : Except ε α) (f : α → Except ε β) (g : β → γ) :
    (x >>= f).map g = x >>= fun a => (f a).map g := by
  cases x <;> rfl

@[simp] theorem map_ok (a : α) (f : α → β) : (Except.ok a : Except ε α).map f = .ok (f a) := rfl

@[simp] theorem map_error (e : ε) (f : α → β) :
    (Except.error e : Except ε α).map f = .error e := rfl

theorem map_eq_ok {x : Except ε α} {f : α → β} {b : β} :
    x.map f = .ok b ↔ ∃ a, x = .ok a ∧ f a = b := by
  cases x with
  | error e => simp
  | ok a => simp

theorem map_eq_error {x : Except ε α} {f : α → β} {e : ε} : x.map f = .error e ↔ x = .error e := by
  cases x with
  | error e' => simp
  | ok a => simp

theorem mapError_eq_ok {x : Except ε α} {f : ε → γ} {a : α} :
    x.mapError f = .ok a ↔ x = .ok a := by
  cases x with
  | error e => exact iff_of_false (fun h => by cases h) (fun h => by cases h)
  | ok b =>
    exact ⟨fun h => congrArg _ (Except.ok.inj h), fun h => congrArg _ (Except.ok.inj h)⟩

theorem toOption_eq_some {x : Except ε α} {a : α} : x.toOption = some a ↔ x = .ok a := by
  cases x <;> simp [Except.toOption]

theorem foldlM_eq_ok_of {f g : β → α → Except ε β} (h : ∀ b a c, f b a = .ok c → g b a = .ok c)
    {items : List α} {b c : β} (hf : items.foldlM f b = .ok c) : items.foldlM g b = .ok c := by
  induction items generalizing b with
  | nil => exact hf
  | cons a more ih =>
    rw [List.foldlM_cons] at hf ⊢
    obtain ⟨next, hnext, hmore⟩ := bind_eq_ok.1 hf
    rw [h b a next hnext]
    exact ih hmore

/-- A result that passes a check. -/
theorem exists_of_any {x : Except ε α} {p : α → Bool} (h : x.toOption.any p) :
    ∃ a, x = .ok a ∧ p a := by
  cases x with
  | error e => cases h
  | ok a => exact ⟨a, rfl, h⟩

/-! ### One step for each item -/

section Each
variable {f : α → Except ε Unit}

theorem forM_eq_ok {items : List α} : items.forM f = .ok () ↔ ∀ a ∈ items, f a = .ok () := by
  induction items with
  | nil => simp [pure, Except.pure]
  | cons a items ih =>
    rw [List.forM_eq_forM] at ih ⊢
    rw [List.forM_cons, bind_eq_ok, List.forall_mem_cons, ← ih]
    exact ⟨fun ⟨_, ha, hmore⟩ => ⟨ha, hmore⟩, fun ⟨ha, hmore⟩ => ⟨(), ha, hmore⟩⟩

theorem exists_of_forM_eq_error {items : List α} {e : ε} (h : items.forM f = .error e) :
    ∃ a ∈ items, f a = .error e := by
  induction items with
  | nil => cases h
  | cons a items ih =>
    rw [List.forM_eq_forM, List.forM_cons, bind_eq_error] at h
    obtain h | ⟨_, -, h⟩ := h
    · exact ⟨a, List.mem_cons_self, h⟩
    · obtain ⟨b, hb, hf⟩ := ih h
      exact ⟨b, List.mem_cons_of_mem a hb, hf⟩

end Each

end WireSchema.Outcome
