import HiPerf.Cow.Cells

/-!
Chunks of an earlier generation are never written: what a call does to the
memory, whether or not it stops, and what a root shows ever after.
-/

namespace HiPerf

open Machine Exec Epoch

namespace CowBook

/-- The generation is at most `n` further on and every older chunk is as it was. -/
structure Later (n : Nat) (w w' : CowBook) : Prop where
  gen_le : w.gen ≤ w'.gen
  le_gen : w'.gen ≤ w.gen + n
  orders : Epoch.Later w.gen w'.gen w.mem.orders w'.mem.orders
  levels : Epoch.Later w.gen w'.gen w.mem.levels w'.mem.levels

theorem Later.trans {n m : Nat} {w₁ w₂ w₃ : CowBook} (h : Later n w₁ w₂) (h' : Later m w₂ w₃) :
    Later (n + m) w₁ w₃ where
  gen_le := h.gen_le.trans h'.gen_le
  le_gen := by have := h.le_gen; have := h'.le_gen; omega
  orders := h.orders.trans h.gen_le h'.orders
  levels := h.levels.trans h.gen_le h'.levels

/-- Nothing but the memory and the generation counts. -/
theorem Later.same {w w' : CowBook} (hg : w'.gen = w.gen) (hm : w'.mem = w.mem) : Later 0 w w' := by
  refine ⟨Nat.le_of_eq hg.symm, Nat.le_of_eq hg, ?_, ?_⟩
  · rw [hm]; exact .refl (Nat.le_of_eq hg.symm) _
  · rw [hm]; exact .refl (Nat.le_of_eq hg.symm) _

theorem Later.weaken {n m : Nat} {w w' : CowBook} (h : Later n w w') (hnm : n ≤ m) : Later m w w' :=
  { h with le_gen := by have := h.le_gen; omega }

instance : Std.Refl (Later 0) := ⟨fun _ => .same rfl rfl⟩

instance : IsTrans CowBook (Later 0) := ⟨fun _ _ _ h h' => h.trans h'⟩

/-- A call that starts no generation. -/
abbrev Keeps {α : Type} (x : Run CowBook α) : Prop := Along (Later 0) x

theorem orderMut_keeps (slot : Nat) (write : Order → Order) : Keeps (orderMut slot write) := by
  intro w
  unfold last orderMut
  cases e : own w.mem.orders w.orderChunks w.gen (slot / w.chunk) with
  | none => exact .same rfl rfl
  | some p =>
    obtain ⟨heap, table⟩ := p
    have hlev := Epoch.Later.refl (Nat.le_refl w.gen) w.mem.levels
    cases hg : Epoch.get heap table w.chunk slot with
    | none =>
      simp only [hg]
      exact ⟨Nat.le_refl _, Nat.le_refl _, own_later e, hlev⟩
    | some o =>
      simp only [hg]
      exact ⟨Nat.le_refl _, Nat.le_refl _, own_put_later e, hlev⟩

theorem setLevels_later {w : CowBook} {side : Nat} {heap : Heap PriceLevel} {table : Array Nat}
    (h : Epoch.Later w.gen w.gen w.mem.levels heap) : Later 0 w (w.setLevels side heap table) := by
  have hord := Epoch.Later.refl (Nat.le_refl w.gen) w.mem.orders
  unfold setLevels
  split
  · exact ⟨Nat.le_refl _, Nat.le_refl _, hord, h⟩
  · exact ⟨Nat.le_refl _, Nat.le_refl _, hord, h⟩

theorem levelMut_keeps (side t : Nat) (write : PriceLevel → PriceLevel) :
    Keeps (levelMut side t write) := by
  intro w
  unfold last levelMut
  cases e : own w.mem.levels (w.lane side) w.gen (t / LEVEL_CHUNK) with
  | none => exact .same rfl rfl
  | some p =>
    obtain ⟨heap, table⟩ := p
    cases hg : Epoch.get heap table LEVEL_CHUNK t with
    | none => simp only [hg]; exact setLevels_later (own_later e)
    | some l => simp only [hg]; exact setLevels_later (own_put_later e)

theorem later_cellwise : Cellwise (Later 0) := ⟨fun h => .same h.gen h.mem, orderMut_keeps, levelMut_keeps⟩

theorem apply_keeps (op : Op) : Keeps (apply op) := later_cellwise.apply op

/-- A capture starts the next generation, as long as there is one. -/
theorem capture_later {w : CowBook} (hg : w.gen + 1 < 18446744073709551616) :
    Later 1 w { w with gen := u64 (w.gen + 1) } := by
  have e : u64 ((w.gen : Int) + 1) = w.gen + 1 := by unfold u64; omega
  rw [e]
  exact ⟨Nat.le_succ _, Nat.le_refl _, .refl (Nat.le_succ _) _, .refl (Nat.le_succ _) _⟩

/-- Over a whole run, also one that stops. -/
theorem run_later (calls : List CowCall) {w : CowBook}
    (hg : w.gen + CowCall.captures calls < 18446744073709551616) :
    Later (CowCall.captures calls) w (last (run calls) w) := by
  induction calls generalizing w with
  | nil => exact .same rfl rfl
  | cons c calls ih =>
    have hcons : last (run (c :: calls)) w = match call c w with
        | .ok _ w' => last (run calls) w'
        | .error _ w' => w' := by
      cases e : call c w with
      | ok a w' => simp only [last, run, runAll, bind_ok e]
      | error p w' => simp only [last, run, runAll, bind_error e]
    rw [hcons]
    cases c with
    | op o =>
      have hop := apply_keeps o w
      simp only [CowCall.captures] at hg ⊢
      cases e : apply o w with
      | ok a w' =>
        rw [last_ok e] at hop
        have hlt : w'.gen + CowCall.captures calls < 18446744073709551616 := by
          have := hop.le_gen
          omega
        have h := hop.trans (ih hlt)
        rw [Nat.zero_add] at h
        simpa only [call, e] using h
      | error p w' =>
        rw [last_error e] at hop
        simpa only [call, e] using hop.weaken (Nat.zero_le _)
    | capture =>
      simp only [CowCall.captures] at hg ⊢
      have hcap := capture_later (w := w) (by omega)
      have hlt := ih (w := { w with gen := u64 (w.gen + 1) }) (by have := hcap.le_gen; omega)
      have h := hcap.trans hlt
      rw [Nat.add_comm] at h
      exact h

/-- Every chunk is of a generation already begun. -/
def Aged (w : CowBook) : Prop := Epoch.Aged w.gen w.mem.orders ∧ Epoch.Aged w.gen w.mem.levels

theorem Later.keepsAged {n : Nat} {w w' : CowBook} (h : Later n w w') (ha : w.Aged) : w'.Aged :=
  ⟨h.orders.aged ha.1, h.levels.aged ha.2⟩

theorem new_aged {cfg : SmrConfig} {w : CowBook} (h : new cfg = .ok w) : w.gen = 1 ∧ w.Aged := by
  have hfill : ∀ {α : Type} (size n : Nat) (v : α) (c : Chunk α), c ∈ Epoch.fill size n v → c.born = 1 := by
    intro α size n v c hc
    obtain ⟨ci, -, rfl⟩ := Array.mem_map.mp hc
    rfl
  unfold new at h
  split at h
  · cases h
  · cases h
    refine ⟨rfl, fun a c hc => ?_, fun a c hc => ?_⟩
    · exact Nat.le_of_eq (hfill _ _ _ c (Array.mem_of_getElem? hc))
    · obtain hc | hc := Array.mem_append.mp (Array.mem_of_getElem? hc)
      · exact Nat.le_of_eq (hfill _ _ _ c hc)
      · exact Nat.le_of_eq (hfill _ _ _ c hc)

/-- A root captured here shows, however far the writer has gone on, what the
book showed at its capture. -/
theorem root_shows {w w' : CowBook} (ha : w.Aged) {n : Nat}
    (h : Later n { w with gen := w.gen + 1 } w') (ho : Held w.mem.orders w.orderChunks)
    (hl : ∀ side, Held w.mem.levels (w.lane side)) :
    (∀ slot, w.root.order w'.mem slot = w.order? slot) ∧
      ∀ side t, w.root.level w'.mem side t = w.level? side t :=
  ⟨fun _ => h.orders.get_eq ho fun a c e => Nat.lt_succ_of_le (ha.1 a c e),
    fun side _ => h.levels.get_eq (hl side) fun a c e => Nat.lt_succ_of_le (ha.2 a c e)⟩

end CowBook

end HiPerf
