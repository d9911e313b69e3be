import HiPerf.Book.Invariant

/-!
A pool with gaps: slots below the mark that hold no order and are not on the free
list. The calls never look at them, so all there is to lose is room.
-/

namespace HiPerf

open Machine Exec

/-- One call keeps a memory with gaps in step with the ledger. -/
theorem Flat.Spares.step {cap : Nat} (hcap : cap ≤ NIL) {f : Flat} {L : Ledger} (h : f.Spares cap L)
    {op : Op} (hadm : op.Admitted f.grid L)
    (hroom : op.inserts = 1 → f.freeHead = NIL → f.hwm < cap) :
    (f.step op).Spares cap (L.apply op) := by
  obtain ⟨q, fl, hrep, hfl, hle⟩ := h
  have hremove : ∀ orderId mark, Flat.Books mark → orderId ∈ L.ids →
      ∃ slot, f.ids orderId = some slot ∧
        (f.remove orderId slot mark).Spares cap (L.apply (.cancel orderId)) := by
    intro orderId mark hm hid
    obtain ⟨slot, e, hq, rfl⟩ := hrep.ids_isSome hid
    obtain ⟨-, hhwm, -⟩ := remove_ord f slot mark
    exact ⟨slot, e, _, _, hrep.remove hq hm (hfl.head_le hrep.hwm_le), (hfl.remove hrep hq hm).1,
      hhwm ▸ hle⟩
  cases op with
  | insert orderId price qty side =>
    have hlt : fl = [] → f.hwm < cap := by
      rintro rfl
      exact hroom rfl hfl.chain
    have hnil : fl = [] → f.hwm < NIL := fun e => Nat.lt_of_lt_of_le (hlt e) hcap
    obtain ⟨hnew, -, hslot, hblank, -, -, -⟩ := hfl.alloc hrep.hwm_le hnil
    refine ⟨_, _, (hrep.alloc hfl hnil).enter hslot (by rwa [alloc_ord]) rfl (by simpa using hadm),
      (hfl.enter hrep hnil _).1, ?_⟩
    change f.alloc.hwm ≤ cap
    rw [hnew]
    split
    · exact hlt ‹_›
    · exact hle
  | update orderId n =>
    obtain ⟨slot, e, hq, rfl⟩ := hrep.ids_isSome hadm.1
    simp only [Flat.step, e]
    exact ⟨_, _, hrep.fillSlot hq hadm.2, (hfl.fillSlot hrep hq n).1, hle⟩
  | cancel orderId =>
    obtain ⟨slot, e, h⟩ := hremove orderId _ books_withdrawn hadm
    simpa only [Flat.step, e] using h
  | fill orderId =>
    obtain ⟨slot, e, h⟩ := hremove orderId _ books_completed hadm
    rw [Ledger.apply_fill]
    simpa only [Flat.step, e] using h

namespace Book

variable {cap : Nat} {f : Flat}

theorem insert_exhausted {b : Book} (htick : 0 < b.tick) (hfree : b.freeHead = NIL)
    (hfull : b.hwm = b.pool.size) (orderId price qty : Int) (side : Nat) :
    ∃ p b', insert orderId price qty side b = .error p b' := by
  have htickOf : ∃ t, tickOf price b = .ok t b := by
    simp only [tickOf, get_bind, gridTick, ite_run]
    rw [if_neg (by omega), if_neg (by omega)]
    exact ⟨_, rfl⟩
  obtain ⟨t, ht⟩ := htickOf
  have halloc : ∃ p, allocSlot b = .error p b := by
    simp only [allocSlot, get_bind, ite_run]
    rw [if_neg (not_not.mpr hfree), if_pos hfull]
    exact ⟨_, rfl⟩
  obtain ⟨p, ha⟩ := halloc
  refine ⟨p, b, ?_⟩
  unfold insert
  rw [bind_ok ht, bind_error ha]

/-- What a book with gaps completes of a sequence of admitted calls it does in
step with the ledger. -/
theorem run_spares {g : Grid} (hcap : cap ≤ NIL) {L : Ledger} {ops : List Op} {b b' : Book}
    (hfg : f.grid = g) (hb : b.Shows cap f) (h : f.Spares cap L) (hadm : Admitted g L ops)
    (hrun : run ops b = .ok () b') :
    b'.Shows cap (f.steps ops) ∧ (f.steps ops).Spares cap (L.after ops) ∧ (f.steps ops).grid = g := by
  induction ops generalizing f L b with
  | nil =>
    cases hrun
    exact ⟨hb, h, hfg⟩
  | cons op ops ih =>
    obtain ⟨b₁, e₁, e₂⟩ := runAll_cons_eq_ok.mp hrun
    have hop : op.Admitted f.grid L := hfg ▸ hadm.1
    have hroom : op.inserts = 1 → f.freeHead = NIL → f.hwm < cap := by
      intro hins hfree
      obtain ⟨q, fl, hrep, -, hle⟩ := h
      refine Nat.lt_of_le_of_ne hle fun hfull => ?_
      cases op with
      | insert orderId price qty side =>
        have htick := hrep.grid_ok.tick_pos
        rw [← hb.view] at hfree hfull htick
        obtain ⟨p, b₂, e⟩ := insert_exhausted htick hfree (hfull.trans hb.pool.symm) orderId price qty
          side
        rw [show apply (.insert orderId price qty side) b = _ from e] at e₁
        cases e₁
      | update orderId n => cases hins
      | cancel orderId => cases hins
      | fill orderId => cases hins
    obtain ⟨b₁', e₁', hb₁⟩ := apply_runs_of h hop hroom b hb
    rw [e₁] at e₁'
    cases e₁'
    exact ih ((f.step_grid op).trans hfg) hb₁ (h.step hcap hop hroom) hadm.2 e₂

end Book

end HiPerf
