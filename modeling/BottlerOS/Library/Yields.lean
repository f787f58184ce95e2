/-! Loops with fuel. A computation yields a result when enough fuel makes it return that
result and no amount of fuel makes it return another one. -/

namespace BottlerOS.Yields

structure Yields {ε α : Type} (f : Nat → Except ε α) (a : α) : Prop where
  comes : ∃ k, ∀ fuel, k ≤ fuel → f fuel = .ok a
  only : ∀ fuel b, f fuel = .ok b → b = a

section
variable {ε α β : Type} {f g : Nat → Except ε α} {a : α} {b : β}

theorem Yields.of_ok {x : Except ε α} (h : x = .ok a) : Yields (fun _ => x) a where
  comes := ⟨0, fun _ _ => h⟩
  only _ _ hb := Except.ok.inj (hb.symm.trans h)

theorem Yields.congr (h : Yields g a) (same : ∀ fuel, f fuel = g fuel) : Yields f a := by
  rwa [funext same]

/-- One turn of a loop. -/
theorem Yields.step (h : Yields g a) (stop : ∀ b, f 0 ≠ .ok b) (next : ∀ n, f (n + 1) = g n) :
    Yields f a where
  comes := by
    obtain ⟨k, hk⟩ := h.comes
    refine ⟨k + 1, fun fuel le => ?_⟩
    obtain ⟨n, rfl⟩ : ∃ n, fuel = n + 1 := ⟨fuel - 1, by omega⟩
    rw [next]
    exact hk n (by omega)
  only fuel b hb := by
    cases fuel with
    | zero => exact absurd hb (stop b)
    | succ n => exact h.only n b (next n ▸ hb)

theorem Yields.bind {k : Nat → α → Except ε β} (h : Yields f a)
    (h' : Yields (fun fuel => k fuel a) b) : Yields (fun fuel => f fuel >>= k fuel) b where
  comes := by
    obtain ⟨n, hn⟩ := h.comes
    obtain ⟨m, hm⟩ := h'.comes
    refine ⟨max n m, fun fuel le => ?_⟩
    have first := hn fuel (by omega)
    have second := hm fuel (by omega)
    rw [first]
    exact second
  only fuel c hc := by
    cases first : f fuel with
    | error e =>
      rw [first] at hc
      cases hc
    | ok x =>
      obtain rfl := h.only fuel x first
      rw [first] at hc
      exact h'.only fuel c hc

/-- A result that comes with some fuel is the one that is yielded. -/
theorem Yields.eq (h : Yields f a) {fuel : Nat} {c : α} (run : f fuel = .ok c) : c = a :=
  h.only fuel c run

theorem Yields.exists (h : Yields f a) : ∃ fuel, f fuel = .ok a := by
  obtain ⟨k, hk⟩ := h.comes
  exact ⟨k, hk k (Nat.le_refl k)⟩

end

end BottlerOS.Yields
