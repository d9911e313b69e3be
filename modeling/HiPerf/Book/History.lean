import HiPerf.Book.Atomic
import HiPerf.Book.Invariant

/-!
The slots of the pool over a whole run. The mark stands at the largest number of
orders that ever rested at once, and slots are used again in the order opposite to
that in which they became free.
-/

namespace HiPerf

open Machine Exec

/-- What can happen to a slot. -/
inductive SlotEvent where
  | given (slot : Nat)
  | freed (slot : Nat)
  deriving DecidableEq, Repr

/-- The slots freed and not given again, the last one freed first. -/
def SlotEvent.note (free : List Nat) : SlotEvent → List Nat
  | .given slot => free.erase slot
  | .freed slot => slot :: free

def waiting (events : List SlotEvent) : List Nat := events.foldl SlotEvent.note []

/-- The largest number of orders that rest at once during `ops`. -/
def Ledger.peak (L : Ledger) : List Op → Nat
  | [] => L.length
  | op :: ops => max L.length (peak (L.apply op) ops)

namespace Book

/-- What a call from `b` to `b'` did to slots, by the id-map. -/
def events (b b' : Book) : Op → List SlotEvent
  | .insert orderId _ _ _ => (b'.idmap orderId).toList.map .given
  | .update _ _ => []
  | .cancel orderId => (b.idmap orderId).toList.map .freed
  | .fill orderId => (b.idmap orderId).toList.map .freed

def history (b : Book) : List Op → List SlotEvent
  | [] => []
  | op :: ops =>
    match apply op b with
    | .ok _ b' => b.events b' op ++ b'.history ops
    | .error _ _ => []

variable {cap : Nat} {b b' : Book} {f : Flat} {L : Ledger} {fl : List Nat}

theorem Shows.ids_eq (h : b.Shows cap f) (orderId : Int) : b.idmap orderId = f.ids orderId := by
  rw [← h.view]; rfl

theorem insert_ids (f : Flat) (r : Resting) : (f.insert r).ids r.orderId = some f.nextSlot :=
  if_pos rfl

/-- A call moves its slot as the free list does. -/
theorem events_note (hb : b.Shows cap f) (h : f.Frees cap L fl) {op : Op}
    (hb' : b'.Shows cap (f.step op)) :
    (b.events b' op).foldl SlotEvent.note fl = f.nextFree fl op := by
  obtain ⟨q, hrep, hfl, -⟩ := h
  cases op with
  | insert orderId price qty side =>
    have hids := insert_ids f ⟨orderId, price, qty, 0, side⟩
    have hmap : b'.idmap orderId = some f.nextSlot := (hb'.ids_eq orderId).trans hids
    simp only [events, hmap, Flat.nextFree, hfl.nextSlot]
    cases fl with
    | nil => rfl
    | cons a fl => simp [SlotEvent.note]
  | update orderId n => rfl
  | cancel orderId =>
    simp only [events, hb.ids_eq, Flat.nextFree]
    cases f.ids orderId <;> rfl
  | fill orderId =>
    simp only [events, hb.ids_eq, Flat.nextFree]
    cases f.ids orderId <;> rfl

theorem length_apply_le {op : Op} (h : op.inserts = 0) : (L.apply op).length ≤ L.length := by
  cases op with
  | insert orderId price qty side => cases h
  | update orderId n => exact (List.length_map _).le
  | cancel orderId => exact List.length_filter_le _ _
  | fill orderId => exact List.length_filter_le _ _

/-- The mark moves only when it has to. -/
theorem hwm_step (h : f.Frees cap L fl) {op : Op} (hop : op.Ready cap f.grid L) :
    (f.step op).hwm = max f.hwm (L.apply op).length := by
  have hstep := (h.step hop).2
  obtain ⟨q, hrep, hfl, -⟩ := h
  have hcount := hfl.count
  rw [hstep]
  cases op with
  | insert orderId price qty side =>
    have hlen : (L.apply (.insert orderId price qty side)).length = L.length + 1 := by
      simp [Ledger.apply]
    rw [hlen]
    cases fl with
    | nil =>
      simp only [List.length_nil] at hcount
      simp only [if_true, Op.inserts]
      omega
    | cons a fl =>
      simp only [List.length_cons] at hcount
      simp only [reduceCtorEq, if_false]
      omega
  | update orderId n =>
    have hle := @length_apply_le L (.update orderId n) rfl
    simp only [Op.inserts, ite_self]
    omega
  | cancel orderId =>
    have hle := @length_apply_le L (.cancel orderId) rfl
    simp only [Op.inserts, ite_self]
    omega
  | fill orderId =>
    have hle := @length_apply_le L (.fill orderId) rfl
    simp only [Op.inserts, ite_self]
    omega

theorem length_le_peak (L : Ledger) (ops : List Op) : L.length ≤ L.peak ops := by
  cases ops with
  | nil => exact Nat.le_refl _
  | cons op ops => exact Nat.le_max_left _ _

/-- Over a run the free list holds the slots that wait, and the mark stands at the peak. -/
theorem run_frees {g : Grid} {ops : List Op} (hfg : f.grid = g) (hb : b.Shows cap f)
    (h : f.Frees cap L fl) (hready : Ready cap g L ops) (e : run ops b = .ok () b') :
    ∃ f', b'.Shows cap f' ∧ f'.grid = g ∧
      f'.Frees cap (L.after ops) ((b.history ops).foldl SlotEvent.note fl) ∧
      f'.hwm = max f.hwm (L.peak ops) := by
  induction ops generalizing b f L fl with
  | nil =>
    cases e
    obtain ⟨q, hrep, hfl, hcap⟩ := h
    have hcount := hfl.count
    refine ⟨f, hb, hfg, ⟨q, hrep, hfl, hcap⟩, ?_⟩
    rw [Ledger.peak]
    omega
  | cons op ops ih =>
    obtain ⟨b₁, e₁, e₂⟩ := runAll_cons_eq_ok.mp e
    have hop : op.Ready cap f.grid L := hfg ▸ hready.1
    have hholds : f.Holds cap L := by
      obtain ⟨q, h⟩ := h
      exact ⟨q, fl, h⟩
    obtain ⟨b₁', e₁', hb₁⟩ := apply_runs hholds hop b hb
    rw [e₁] at e₁'
    cases e₁'
    obtain ⟨f', hf', hgrid, hfrees, hhwm⟩ := ih ((f.step_grid op).trans hfg) hb₁ (h.step hop).1
      hready.2 e₂
    refine ⟨f', hf', hgrid, ?_, ?_⟩
    · simp only [history, e₁, List.foldl_append, events_note hb h hb₁]
      exact hfrees
    · have hpeak := length_le_peak (L.apply op) ops
      obtain ⟨q, hrep, hfl, hcap⟩ := h
      have hcount := hfl.count
      rw [hhwm, hwm_step ⟨q, hrep, hfl, hcap⟩ hop, Ledger.peak]
      omega

/-- An insert that goes through knows its order by the slot it took. -/
theorem insert_slot {orderId price qty : Int} {side : Nat}
    (e : insert orderId price qty side b = .ok () b') :
    ∃ slot b₁, allocSlot b = .ok slot b₁ ∧ b'.idmap orderId = some slot := by
  obtain ⟨t, b₀, e₀, e⟩ := bind_eq_ok.mp e
  obtain ⟨slot, b₁, e₁, e⟩ := bind_eq_ok.mp e
  obtain ⟨old, b₂, -, e⟩ := bind_eq_ok.mp e
  obtain ⟨_, b₃, -, e⟩ := bind_eq_ok.mp e
  obtain ⟨lvl, b₄, -, e⟩ := bind_eq_ok.mp e
  obtain ⟨_, b₅, -, e⟩ := bind_eq_ok.mp e
  have hb₀ : b₀ = b := by
    rcases tickOf_cases price b with ⟨t', e', -⟩ | ⟨p, e'⟩
    · rw [e₀] at e'
      cases e'
      rfl
    · rw [e₀] at e'
      cases e'
  have hend : ∀ b₆, (do
      modify fun b : Book => { b with idmap := b.idmap.insert orderId slot }
      noteBest side t : Run Book Unit) b₆ = .ok () b' → b'.idmap orderId = some slot := by
    intro b₆ e
    cases e
    exact if_pos rfl
  refine ⟨slot, b₁, hb₀ ▸ e₁, ?_⟩
  dsimp only at e
  split at e
  · obtain ⟨_, b₆, -, e⟩ := bind_eq_ok.mp e
    exact hend b₆ e
  · exact hend b₅ e

theorem allocSlot_slot (hb : b.Shows cap f) (h : f.Frees cap L fl) {slot : Nat} {b₁ : Book}
    (e : allocSlot b = .ok slot b₁) : slot = fl.headD b.hwm := by
  obtain ⟨q, hrep, hfl, -⟩ := h
  rw [hb.hwm_eq, ← hfl.nextSlot, ← hb.view]
  unfold allocSlot at e
  rw [get_bind] at e
  split at e
  · rename_i hne
    obtain ⟨o, b₂, -, e⟩ := bind_eq_ok.mp e
    cases e
    exact (if_pos hne).symm
  · rename_i hnil
    split at e
    · cases e
    · cases e
      exact (if_neg hnil).symm

/-- The pool is exhausted when as many orders rest as it has slots. -/
theorem full_iff (hb : b.Shows cap f) (h : f.Frees cap L fl) :
    (b.freeHead = NIL ∧ b.hwm = b.pool.size) ↔ L.length = cap := by
  obtain ⟨q, hrep, hfl, hcap⟩ := h
  have hcount := hfl.count
  have hhead : b.freeHead = f.freeHead := by rw [← hb.view]; rfl
  rw [hhead, hfl.chain.eq_nil_iff, hb.hwm_eq, hb.pool, ← List.length_eq_zero_iff]
  omega

/-- An insert stops for want of a slot in exactly that case, whatever it puts in. -/
theorem exhausted_iff (hsound : b.Sound) (htick : 0 < b.tick) (orderId price qty : Int)
    (side : Nat) :
    (∃ b', insert orderId price qty side b =
        .error (.message s!"order pool exhausted: SMRC_CAP={b.pool.size} reached") b') ↔
      b.freeHead = NIL ∧ b.hwm = b.pool.size := by
  obtain ⟨t, e₁, hfind⟩ : ∃ t, tickOf price b = .ok t b ∧ Finds b.priceMin b.tick price t := by
    rcases tickOf_cases price b with h | ⟨p, e⟩
    · exact h
    · simp only [tickOf, get_bind, gridTick, ite_run, if_neg htick.ne'] at e
      rw [if_neg fun h => by omega] at e
      cases e
  constructor
  · rintro ⟨b', e⟩
    by_contra hroom
    rcases allocSlot_cases hsound with ⟨slot, b₁, e₂, -, -, -⟩ | e₂
    · rcases insert_of_slot hsound e₁ hfind e₂ orderId qty side with ⟨b₂, e₃, -⟩ | ⟨-, e₃⟩
      · rw [e] at e₃
        cases e₃
      · rw [e] at e₃
        cases e₃
    · simp only [allocSlot, get_bind] at e₂
      split at e₂
      · obtain ⟨o, b₂, e₃⟩ : ∃ o b₂, order b.freeHead b = .ok o b₂ := by
          have hlt := hsound.free ‹_›
          exact ⟨_, _, order_get (Array.getElem?_eq_getElem hlt)⟩
        rw [bind_ok e₃] at e₂
        cases e₂
      · rename_i hnil
        split at e₂
        · exact hroom ⟨not_not.mp hnil, ‹_›⟩
        · cases e₂
  · rintro ⟨hnil, hfull⟩
    refine ⟨b, ?_⟩
    rw [insert, bind_ok e₁]
    refine bind_error ?_ _
    simp only [allocSlot, get_bind, if_neg (not_not.mpr hnil), if_pos hfull]
    rfl

theorem peak_le_append (L : Ledger) (ops ops' : List Op) : L.peak ops ≤ L.peak (ops ++ ops') := by
  induction ops generalizing L with
  | nil => exact length_le_peak L ops'
  | cons op ops ih =>
    rw [List.cons_append, Ledger.peak, Ledger.peak]
    exact max_le_max_left _ (ih _)

/-- From the empty book on the mark is at the largest number of orders that rested. -/
theorem run_marks {cfg : SmrConfig} (hg : cfg.grid.Ok) {ops : List Op}
    (hwf : WellFormed cfg [] ops) (hslots : SlotsFit [] ops) {b : Book}
    (hrun : run ops (new cfg) = .ok () b) :
    ∃ f, b.Shows cfg.cap f ∧ f.grid = cfg.grid ∧
      f.Frees cfg.cap (Ledger.after [] ops) (waiting ((new cfg).history ops)) ∧
      b.hwm = Ledger.peak [] ops := by
  obtain ⟨hord, hlvl⟩ := new_blank cfg
  have hfrees : (new cfg).view.Frees cfg.cap [] [] :=
    ⟨_, Rep.empty hg hlvl hord (fun _ => rfl) rfl rfl rfl, FreeList.empty hord rfl rfl,
      Nat.zero_le _⟩
  have hready := run_completes hg (new_shows cfg) rfl (new_narrow cfg) (new_holds hg) hwf hslots hrun
  obtain ⟨f, hf, hgrid, hfree, hhwm⟩ := run_frees rfl (new_shows cfg) hfrees hready hrun
  refine ⟨f, hf, hgrid, hfree, ?_⟩
  rw [hf.hwm_eq, hhwm]
  exact Nat.max_eq_right (Nat.zero_le _)

/-- After every well-formed sequence for which slot numbers suffice: the mark stands
at the largest number of orders that ever rested at once, an insert finds the pool
exhausted exactly when it is full of resting orders, and takes the slot that became
free last, or else the one at the mark. -/
theorem slots_reused {cfg : SmrConfig} (hg : cfg.grid.Ok) {ops : List Op}
    (hwf : WellFormed cfg [] ops) (hslots : SlotsFit [] ops) {b : Book}
    (hrun : run ops (new cfg) = .ok () b) :
    b.hwm = Ledger.peak [] ops ∧
    (∀ (orderId price qty : Int) (side : Nat),
      (∃ b', insert orderId price qty side b =
        .error (.message s!"order pool exhausted: SMRC_CAP={cfg.cap} reached") b') ↔
      (Ledger.after [] ops).length = cfg.cap) ∧
    ∀ (orderId price qty : Int) (side : Nat) (b' : Book),
      insert orderId price qty side b = .ok () b' →
      b'.idmap orderId = some ((waiting ((new cfg).history ops)).headD b.hwm) := by
  obtain ⟨f, hf, hgrid, hfree, hhwm⟩ := run_marks hg hwf hslots hrun
  have hsound := run_sound (new_sound cfg) hrun
  have htick : 0 < b.tick := by
    have e : b.tick = f.grid.tick := by rw [← hf.view]; rfl
    rw [e, hgrid]
    exact hg.tick_pos
  refine ⟨hhwm, fun orderId price qty side => ?_, fun orderId price qty side b' e => ?_⟩
  · rw [← full_iff hf hfree, ← exhausted_iff hsound htick orderId price qty side, hf.pool]
  · obtain ⟨slot, b₁, e₁, hids⟩ := insert_slot e
    rw [hids, allocSlot_slot hf hfree e₁]

theorem slots_reused_smallRun : ∃ b, run smallRun (new smallBook) = .ok () b ∧
    b.hwm = Ledger.peak [] smallRun ∧
    (∀ (orderId price qty : Int) (side : Nat),
      (∃ b', insert orderId price qty side b =
        .error (.message s!"order pool exhausted: SMRC_CAP={smallBook.cap} reached") b') ↔
      (Ledger.after [] smallRun).length = smallBook.cap) ∧
    ∀ (orderId price qty : Int) (side : Nat) (b' : Book),
      insert orderId price qty side b = .ok () b' →
      b'.idmap orderId = some ((waiting ((new smallBook).history smallRun)).headD b.hwm) := by
  obtain ⟨hrun, -, -⟩ := run_holds smallBook_ok rfl (new_holds smallBook_ok) smallRun_wellFormed
    smallRun_fits
  obtain ⟨b, e, -⟩ := hrun _ (new_shows smallBook)
  exact ⟨b, e, slots_reused smallBook_ok smallRun_wellFormed
    (smallRun_wellFormed.slotsFit (by decide)) e⟩

theorem length_after_le_peak (L : Ledger) (ops : List Op) : (L.after ops).length ≤ L.peak ops := by
  induction ops generalizing L with
  | nil => exact Nat.le_refl _
  | cons op ops ih => exact (ih _).trans (Nat.le_max_right _ _)

/-- When the last slot number is given out the mark wraps. -/
theorem mark_wraps : hugePool.grid.Ok ∧ WellFormed hugePool [] (bidsUpTo (NIL + 1)) ∧
    ∃ b, run (bidsUpTo (NIL + 1)) (new hugePool) = .ok () b ∧
      b.hwm ≠ Ledger.peak [] (bidsUpTo (NIL + 1)) := by
  have hwf : WellFormed hugePool [] (bidsUpTo (NIL + 1)) := bidsUpTo_wellFormed (by decide)
  obtain ⟨b, e, hzero⟩ := hugePool_wraps
  refine ⟨hugePool_ok, hwf, b, e, ?_⟩
  have hpeak := length_after_le_peak [] (bidsUpTo (NIL + 1))
  rw [after_bidsUpTo, List.length_map, List.length_range] at hpeak
  omega

end Book

end HiPerf
