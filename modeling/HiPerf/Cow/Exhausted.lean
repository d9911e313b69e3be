import HiPerf.Cow.Mirror

/-!
When a pool runs out of slots: at an insert that finds as many resting orders as
there are slots, after calls whose prices were all on the ladder. This is so of
both books, wherever captures come.
-/

namespace HiPerf

open Machine Exec

/-- The stop of `alloc_slot`. -/
def Exhausted (p : Panic) : Prop :=
  ∃ n : Nat, p = .message s!"order pool exhausted: SMRC_CAP={n} reached"

/-- The price of an insert is filed at a level of the ladder. -/
def Op.OnLadder (g : Grid) : Op → Prop
  | .insert _ price _ _ => g.tickOf price < g.nLevels
  | _ => True

/-- What a caller has to see to, on any ladder and in a pool of any size. -/
def Op.Due (L : Ledger) : Op → Prop
  | .insert orderId price qty side =>
    (InI64 orderId ∧ InI64 price ∧ InI64 qty) ∧ orderId ≠ 0 ∧ orderId ∉ L.ids ∧ side ≤ 1 ∧
    1 ≤ qty ∧ L.length < NIL ∧ ∀ g x t, L.levelQty g x t + qty ≤ 9223372036854775807
  | .update orderId fillQty => orderId ∈ L.ids ∧ 0 ≤ fillQty
  | .cancel orderId => orderId ∈ L.ids
  | .fill orderId => orderId ∈ L.ids

def Due : Ledger → List Op → Prop
  | _, [] => True
  | L, op :: ops => op.Due L ∧ Due (L.apply op) ops

/-- Some insert finds `room` resting orders, and the calls before it went through. -/
def Exhausts (room : Nat) (g : Grid) (L : Ledger) (ops : List Op) : Prop :=
  ∃ before op after, ops = before ++ op :: after ∧ op.inserts = 1 ∧
    (L.after before).length = room ∧ ∀ o ∈ before, o.OnLadder g

theorem exhausts_nil {room : Nat} {g : Grid} {L : Ledger} : ¬ Exhausts room g L [] := by
  rintro ⟨before, op, after, e, -⟩
  cases before <;> cases e

theorem exhausts_cons {room : Nat} {g : Grid} {L : Ledger} {op : Op} {ops : List Op} :
    Exhausts room g L (op :: ops) ↔
      (op.inserts = 1 ∧ L.length = room) ∨ (op.OnLadder g ∧ Exhausts room g (L.apply op) ops) := by
  constructor
  · rintro ⟨before, o, after, e, hins, hlen, hon⟩
    cases before with
    | nil =>
      cases e
      exact .inl ⟨hins, hlen⟩
    | cons x before =>
      cases e
      exact .inr ⟨hon op List.mem_cons_self, before, o, after, rfl, hins, hlen,
        fun p hp => hon p (List.mem_cons_of_mem _ hp)⟩
  · rintro (⟨hins, hlen⟩ | ⟨hop, before, o, after, rfl, hins, hlen, hon⟩)
    · exact ⟨[], op, ops, rfl, hins, hlen, nofun⟩
    · refine ⟨op :: before, o, after, rfl, hins, hlen, fun p hp => ?_⟩
      rcases List.mem_cons.mp hp with rfl | hp
      · exact hop
      · exact hon p hp

theorem Op.Due.ready {g : Grid} {L : Ledger} {op : Op} (h : op.Due L) (hon : op.OnLadder g)
    {room : Nat} (hroom : op.inserts = 1 → L.length < room) : op.Ready room g L := by
  cases op with
  | insert orderId price qty side =>
    obtain ⟨hi, h0, hnew, hs, hq, hnil, hsum⟩ := h
    exact ⟨⟨hi, h0, hnew, hon, hs, hq, hsum g _ _⟩, hroom rfl, hnil⟩
  | update orderId n => exact ⟨h, trivial⟩
  | cancel orderId => exact ⟨h, trivial⟩
  | fill orderId => exact ⟨h, trivial⟩

theorem Flat.Holds.mono {room cap : Nat} {f : Flat} {L : Ledger} (h : f.Holds room L)
    (hle : room ≤ cap) : f.Holds cap L := by
  obtain ⟨q, fl, hrep, hfl, hroom⟩ := h
  exact ⟨q, fl, hrep, hfl, hroom.trans hle⟩

theorem Flat.Holds.length_le {room : Nat} {f : Flat} {L : Ledger} (h : f.Holds room L) :
    L.length ≤ room := by
  obtain ⟨q, fl, hrep, hfl, hroom⟩ := h
  have := hfl.count
  omega

/-- A full pool has no free slot and no unused one. -/
theorem Flat.Holds.full {f : Flat} {L : Ledger} (h : f.Holds L.length L) :
    f.freeHead = NIL ∧ f.hwm = L.length := by
  obtain ⟨q, fl, hrep, hfl, hroom⟩ := h
  have hcount := hfl.count
  have hnil : fl = [] := List.length_eq_zero_iff.mp (by omega)
  subst hnil
  exact ⟨hfl.chain.eq_nil_iff.mpr rfl, by simpa using hcount⟩

/-- What a call on a store with `room` slots comes to: it goes through, or the
pool is exhausted, or the price is off the ladder. -/
def Op.ComesTo {σ : Type} (room : Nat) (g : Grid) (L : Ledger) (I : Ledger → σ → Prop) (op : Op)
    (r : EStateM.Result Panic σ Unit) : Prop :=
  (op.OnLadder g ∧ (op.inserts = 1 → L.length < room) ∧ ∃ s, r = .ok () s ∧ I (L.apply op) s) ∨
  (op.inserts = 1 ∧ L.length = room ∧ ∃ p s, Exhausted p ∧ r = .error p s) ∨
  (¬ op.OnLadder g ∧ L.length < room ∧ ∃ s, r = .error .indexOutOfBounds s)

/-- A store whose calls come to that is exhausted by the sequences that exhaust
`room` slots, and by no others. -/
theorem runAll_exhausts {σ ι : Type} {step : ι → Run σ Unit} (calls : ι → List Op)
    (I : Ledger → σ → Prop) {room : Nat} {g : Grid}
    (hstep : ∀ i L s, I L s → (calls i = [] ∧ ∃ s', step i s = .ok () s' ∧ I L s') ∨
      ∃ op, calls i = [op] ∧ (op.Due L → op.ComesTo room g L I (step i s)))
    (is : List ι) {L : Ledger} {s : σ} (h : I L s) (hdue : Due L (is.flatMap calls)) :
    (∃ p s', Exhausted p ∧ runAll step is s = .error p s') ↔
      Exhausts room g L (is.flatMap calls) := by
  induction is generalizing L s with
  | nil =>
    constructor
    · rintro ⟨p, s', -, e⟩
      cases e
    · intro h
      exact absurd h exhausts_nil
  | cons i is ih =>
    rw [List.flatMap_cons] at hdue ⊢
    rcases hstep i L s h with ⟨e, s', e', h'⟩ | ⟨op, e, hop⟩
    · rw [e, List.nil_append] at hdue ⊢
      rw [runAll, bind_ok e']
      exact ih h' hdue
    · rw [e, List.singleton_append] at hdue ⊢
      rw [exhausts_cons, runAll]
      rcases hop hdue.1 with ⟨hon, hroom, s', e', h'⟩ | ⟨hins, hfull, p, s', hp, e'⟩ |
        ⟨hoff, hroom, s', e'⟩
      · rw [bind_ok e', ih h' hdue.2]
        refine ⟨fun hx => .inr ⟨hon, hx⟩, fun hx => ?_⟩
        rcases hx with ⟨hins, hlen⟩ | ⟨-, hx⟩
        · exact absurd hlen (Nat.ne_of_lt (hroom hins))
        · exact hx
      · exact ⟨fun _ => .inl ⟨hins, hfull⟩, fun _ => ⟨p, s', hp, bind_error e' _⟩⟩
      · rw [bind_error e']
        constructor
        · rintro ⟨p, _, ⟨n, hp⟩, hx⟩
          cases hx
          cases hp
        · intro hx
          rcases hx with ⟨-, hlen⟩ | ⟨hon, -⟩
          · exact absurd hlen (Nat.ne_of_lt hroom)
          · exact absurd hon hoff

namespace Book

variable {cap : Nat} {f : Flat} {b : Book}

theorem insert_full (hb : b.Shows cap f) (hg : f.grid.Ok) (hfree : f.freeHead = NIL)
    (hfull : f.hwm = cap) (orderId price qty : Int) (side : Nat) :
    ∃ p, Exhausted p ∧ insert orderId price qty side b = .error p b := by
  have hfree' : b.freeHead = NIL := by rw [← hfree, ← hb.view]; rfl
  have hfull' : b.hwm = b.pool.size := by rw [hb.pool, ← hfull, ← hb.view]; rfl
  have halloc : allocSlot b =
      .error (.message s!"order pool exhausted: SMRC_CAP={b.pool.size} reached") b := by
    rw [allocSlot, get_bind, if_neg (not_not.mpr hfree'), if_pos hfull']
    rfl
  exact ⟨_, ⟨b.pool.size, rfl⟩, by rw [insert, bind_ok (tickOf_ok hb hg.tick_pos price), bind_error halloc]⟩

/-- A slot is taken before the level is looked at. -/
theorem insert_off (hb : b.Shows cap f) (hnarrow : b.Narrow) {L : Ledger} (h : f.Holds cap L)
    (hlen : L.length < cap) {price : Int} (hoff : f.grid.nLevels ≤ f.grid.tickOf price)
    (orderId qty : Int) (side : Nat) :
    ∃ slot b', allocSlot b = .ok slot b' ∧
      (b'.lane side)[f.grid.tickOf price]? = none ∧
      insert orderId price qty side b = .error .indexOutOfBounds b' := by
  have hroom := room_of_holds h hlen
  have hfree : f.freeHead ≠ NIL → f.freeHead < cap := head_lt h.spares
  obtain ⟨q, fl, hrep, -, -⟩ := h
  obtain ⟨b', e, hb'⟩ := allocSlot_runs hfree (fun e => Nat.ne_of_lt (hroom e)) b hb
  have hshape := allocSlot_shaped b
  rw [last_ok e] at hshape
  have hn : b.nLevels = f.grid.nLevels := by rw [← hb.view]; rfl
  have hsize : (b'.lane side).size ≤ f.grid.tickOf price := by
    rw [(hnarrow.of_shape hshape).lane_size side, hshape.nLevels, hn]
    exact hoff
  have hnone : (b'.lane side)[f.grid.tickOf price]? = none := Array.getElem?_eq_none hsize
  have hlevel : level side (f.grid.tickOf price) b' = .error .indexOutOfBounds b' := by
    rw [level, hnone]
  refine ⟨f.nextSlot, b', e, hnone, ?_⟩
  rw [insert, bind_ok (tickOf_ok hb hrep.grid_ok.tick_pos price), bind_ok e, bind_error hlevel]

/-- A book of `cap` slots that holds `L`. -/
def Carries (cap : Nat) (g : Grid) (L : Ledger) (b : Book) : Prop :=
  ∃ f, b.Shows cap f ∧ b.Narrow ∧ f.grid = g ∧ f.Holds cap L

theorem apply_comesTo {g : Grid} {L : Ledger} (h : b.Carries cap g L) {op : Op} (hdue : op.Due L) :
    op.ComesTo cap g L (fun L b => b.Carries cap g L) (apply op b) := by
  obtain ⟨f, hb, hnarrow, rfl, hf⟩ := h
  have hgo : op.OnLadder f.grid → (op.inserts = 1 → L.length < cap) →
      op.ComesTo cap f.grid L (fun L b => b.Carries cap f.grid L) (apply op b) := by
    intro hon hroom
    have hready := hdue.ready hon hroom
    obtain ⟨b', e, hb'⟩ := apply_runs hf hready b hb
    have hshape := apply_shaped op b
    rw [last_ok e] at hshape
    exact .inl ⟨hon, hroom, b', e, f.step op, hb', hnarrow.of_shape hshape, f.step_grid op,
      hf.step hready⟩
  cases op with
  | insert orderId price qty side =>
    have hg : f.grid.Ok := by
      obtain ⟨q, fl, hrep, -, -⟩ := hf
      exact hrep.grid_ok
    rcases Nat.lt_or_eq_of_le hf.length_le with hlt | rfl
    · by_cases hon : f.grid.tickOf price < f.grid.nLevels
      · exact hgo hon fun _ => hlt
      · obtain ⟨slot, b', -, -, e⟩ :=
          insert_off hb hnarrow hf hlt (Nat.le_of_not_lt hon) orderId qty side
        exact .inr (.inr ⟨hon, hlt, b', e⟩)
    · obtain ⟨hfree, hfull⟩ := hf.full
      obtain ⟨p, hp, e⟩ := insert_full hb hg hfree hfull orderId price qty side
      exact .inr (.inl ⟨rfl, rfl, p, b, hp, e⟩)
  | update orderId n => exact hgo trivial nofun
  | cancel orderId => exact hgo trivial nofun
  | fill orderId => exact hgo trivial nofun

theorem new_carries {cfg : SmrConfig} (hg : cfg.grid.Ok) : (new cfg).Carries cfg.cap cfg.grid [] :=
  ⟨_, new_shows cfg, new_narrow cfg, rfl, new_holds hg⟩

theorem run_exhausts {g : Grid} {L : Ledger} (h : b.Carries cap g L) {ops : List Op}
    (hdue : Due L ops) :
    (∃ p b', Exhausted p ∧ run ops b = .error p b') ↔ Exhausts cap g L ops := by
  have hid : ops.flatMap (fun op => [op]) = ops := List.flatMap_singleton' ops
  have hrun := runAll_exhausts (fun op => [op]) (fun L (b : Book) => b.Carries cap g L)
    (fun op L b h => .inr ⟨op, rfl, fun hdue => apply_comesTo h hdue⟩) ops h (by rwa [hid])
  rwa [hid] at hrun

end Book

namespace CowBook

variable {cap : Nat} {f : Flat} {b : Book} {w : CowBook}

theorem tickOf_ok (hw : Mirrors cap w b) (hb : b.Shows cap f) (htick : 0 < f.grid.tick)
    (price : Int) : tickOf price w = .ok (f.grid.tickOf price) w := by
  obtain ⟨rfl, -, -, -⟩ := hb
  have h : 0 < w.tick := by rw [hw.tick]; exact htick
  simp only [tickOf, get_bind, gridTick, ite_run]
  rw [if_neg (by omega), if_neg (by omega), hw.priceMin, hw.tick]
  rfl

theorem insert_full (hw : Mirrors cap w b) (hb : b.Shows cap f) (htick : 0 < f.grid.tick)
    (hfree : f.freeHead = NIL) (hfull : f.hwm = u32 cap) (orderId price qty : Int) (side : Nat) :
    ∃ p, Exhausted p ∧ insert orderId price qty side w = .error p w := by
  have hfree' : w.freeHead = NIL := by rw [hw.freeHead, ← hfree, ← hb.view]; rfl
  have hfull' : w.hwm = w.capacity := by rw [hw.hwm, hw.capacity, ← hfull, ← hb.view]; rfl
  have halloc : allocSlot w =
      .error (.message s!"order pool exhausted: SMRC_CAP={w.capacity} reached") w := by
    rw [allocSlot, get_bind, if_neg (not_not.mpr hfree'), if_pos hfull']
    rfl
  exact ⟨_, ⟨w.capacity, rfl⟩, by
    rw [insert, bind_ok (tickOf_ok hw hb htick price), bind_error halloc]⟩

theorem insert_off (hw : Roomy True cap w b) (hb : b.Shows cap f) (htick : 0 < f.grid.tick)
    {price : Int} {side slot : Nat} {b' : Book} (e : Book.allocSlot b = .ok slot b')
    (hnone : (b'.lane side)[f.grid.tickOf price]? = none) (orderId qty : Int) :
    ∃ w', insert orderId price qty side w = .error .indexOutOfBounds w' := by
  obtain ⟨w', e', hw'⟩ := (allocSlot_meets w b hw).2 trivial slot b' e
  have hlevel : level side (f.grid.tickOf price) w' = .error .indexOutOfBounds w' := by
    rw [level, hw'.level, hnone]
  exact ⟨w', by rw [insert, bind_ok (tickOf_ok hw.1 hb htick price), bind_ok e', bind_error hlevel]⟩

/-- A book of `cap` slots, of which slot numbers reach `u32 cap`, that holds `L`. -/
def Carries (cap : Nat) (g : Grid) (L : Ledger) (w : CowBook) : Prop :=
  ∃ b f, Mirrors cap w b ∧ b.Shows cap f ∧ b.Narrow ∧ f.grid = g ∧ f.Holds (u32 cap) L

/-- A pool that is not full has a free slot or an unused one. -/
theorem roomy_of_holds (hw : Mirrors cap w b) (hb : b.Shows cap f) {L : Ledger}
    (hf : f.Holds (u32 cap) L) (hlen : L.length < u32 cap) : Roomy True cap w b := by
  refine ⟨hw, fun _ hfree hfull => ?_⟩
  have hlt := Book.room_of_holds hf hlen (by rw [← hfree, ← hb.view]; rfl)
  have hhwm : f.hwm = u32 cap := by rw [← hw.capacity, ← hfull, hw.hwm, ← hb.view]; rfl
  exact absurd hhwm (Nat.ne_of_lt hlt)

theorem apply_comesTo {g : Grid} {L : Ledger} (h : w.Carries cap g L) {op : Op} (hdue : op.Due L) :
    op.ComesTo (u32 cap) g L (fun L w => w.Carries cap g L) (apply op w) := by
  obtain ⟨b, f, hw, hb, hnarrow, rfl, hf⟩ := h
  have hle : u32 cap ≤ cap := Nat.mod_le _ _
  have hgo : op.OnLadder f.grid → (op.inserts = 1 → L.length < u32 cap) →
      (∀ b', Book.apply op b = .ok () b' → ∃ w', apply op w = .ok () w' ∧ Mirrors cap w' b') →
      op.ComesTo (u32 cap) f.grid L (fun L w => w.Carries cap f.grid L) (apply op w) := by
    intro hon hroom hback
    obtain ⟨b', e, hb'⟩ := Book.apply_runs (hf.mono hle)
      (hdue.ready hon fun hins => Nat.lt_of_lt_of_le (hroom hins) hle) b hb
    obtain ⟨w', e', hw'⟩ := hback b' e
    have hshape := Book.apply_shaped op b
    rw [last_ok e] at hshape
    exact .inl ⟨hon, hroom, w', e', b', f.step op, hw', hb', hnarrow.of_shape hshape,
      f.step_grid op, hf.step (hdue.ready hon hroom)⟩
  cases op with
  | insert orderId price qty side =>
    have htick : 0 < f.grid.tick := by
      obtain ⟨q, fl, hrep, -, -⟩ := hf
      exact hrep.grid_ok.tick_pos
    rcases Nat.lt_or_eq_of_le hf.length_le with hlt | hfull
    · have hroomy := roomy_of_holds hw hb hf hlt
      by_cases hon : f.grid.tickOf price < f.grid.nLevels
      · exact hgo hon (fun _ => hlt) fun b' => (insert_meets _ _ _ _ w b hroomy).2 trivial () b'
      · obtain ⟨slot, b', e, hnone, -⟩ := Book.insert_off hb hnarrow (hf.mono hle)
          (Nat.lt_of_lt_of_le hlt hle) (Nat.le_of_not_lt hon) orderId qty side
        obtain ⟨w', e'⟩ := insert_off hroomy hb htick e hnone orderId qty
        exact .inr (.inr ⟨hon, hlt, w', e'⟩)
    · rw [← hfull] at hf
      obtain ⟨hfree, hhwm⟩ := hf.full
      obtain ⟨p, hp, e⟩ :=
        insert_full hw hb htick hfree (hhwm.trans hfull) orderId price qty side
      exact .inr (.inl ⟨rfl, hfull, p, w, hp, e⟩)
  | update orderId n => exact hgo trivial nofun fun _ => (update_tracks orderId n).back trivial hw
  | cancel orderId => exact hgo trivial nofun fun _ => (cancel_tracks orderId).back trivial hw
  | fill orderId => exact hgo trivial nofun fun _ => (fill_tracks orderId).back trivial hw

theorem new_carries {cfg : SmrConfig} (hg : cfg.grid.Ok) (hc : 1 ≤ cfg.chunk) :
    ∃ w, new cfg = .ok w ∧ w.Carries cfg.cap cfg.grid [] := by
  obtain ⟨w, e, hw⟩ := new_mirrors hc
  obtain ⟨q, fl, hrep, hfl, -⟩ := Book.new_holds hg
  exact ⟨w, e, _, _, hw, Book.new_shows cfg, Book.new_narrow cfg, rfl, q, fl, hrep, hfl, Nat.zero_le _⟩

theorem calls_ops (calls : List CowCall) :
    CowCall.ops calls = calls.flatMap fun | .op op => [op] | .capture => [] := by
  induction calls with
  | nil => rfl
  | cons c calls ih => cases c <;> simp [CowCall.ops, ih]

/-- The same with captures wherever they come. -/
theorem run_exhausts {g : Grid} {L : Ledger} (h : w.Carries cap g L) {calls : List CowCall}
    (hdue : Due L (CowCall.ops calls)) :
    (∃ p w', Exhausted p ∧ run calls w = .error p w') ↔
      Exhausts (u32 cap) g L (CowCall.ops calls) := by
  rw [calls_ops] at hdue ⊢
  refine runAll_exhausts _ (fun L (w : CowBook) => w.Carries cap g L) (fun c L w h => ?_) calls h hdue
  cases c with
  | op op => exact .inr ⟨op, rfl, fun hdue => apply_comesTo h hdue⟩
  | capture =>
    obtain ⟨b, f, hw, hrest⟩ := h
    obtain ⟨w', e, hw'⟩ := capture_tracks.back trivial hw rfl
    exact .inl ⟨rfl, w', e, b, f, hw', hrest⟩

end CowBook

end HiPerf
