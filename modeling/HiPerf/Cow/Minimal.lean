import HiPerf.Cow.Unshared
import HiPerf.Snapshot.RoundTrip

/-!
Copying no more than is written. From one capture to the next every chunk is copied
at most once, and only if a call writes an order or a level in it; the others stay
the very chunks that the root of the first capture refers to.
-/

namespace HiPerf

open Machine Exec Epoch

/-- An order or a level of the book. -/
inductive Place where
  | order (slot : Nat)
  | level (side t : Nat)
  deriving DecidableEq

namespace CowBook

/-- The level of a price. -/
def levelOf (w : CowBook) (price : Int) : Nat := u32 ((i64 (price - w.priceMin)).tdiv w.tick)

/-- The slot the next order goes to. -/
def nextSlot (w : CowBook) : Nat := if w.freeHead ≠ NIL then w.freeHead else w.hwm

/-- An order that a call finds by its id. -/
def found (w : CowBook) (orderId : Int) : Option (Nat × Order) :=
  (w.idmap orderId).bind fun slot => (w.order? slot).map (slot, ·)

/-- The neighbours of an order in its queue. -/
def links (o : Order) : List Place :=
  (if o.prev ≠ NIL then [.order o.prev] else []) ++ if o.next ≠ NIL then [.order o.next] else []

/-- What the call writes fields of, in turn, if it ends. -/
def writes (w : CowBook) : Op → List Place
  | .insert _ price _ side =>
    [.order w.nextSlot, .level side (w.levelOf price)] ++
      (w.level? side (w.levelOf price)).elim [] fun lvl =>
        if lvl.tail ≠ NIL then [.order lvl.tail] else []
  | .update orderId _ => (w.found orderId).elim [] fun (slot, o) =>
    [.order slot, .level o.side (w.levelOf o.price)]
  | .cancel orderId => (w.found orderId).elim [] fun (slot, o) =>
    links o ++ [.level o.side (w.levelOf o.price), .order slot]
  | .fill orderId => (w.found orderId).elim [] fun (slot, o) =>
    .order slot :: links o ++ [.level o.side (w.levelOf o.price), .order slot]

/-- Calls on the book, none of which stops. -/
abbrev runOps (ops : List Op) : Run CowBook Unit := runAll apply ops

/-- Some call of `ops` writes a field of `p`. -/
def Writes (w : CowBook) (ops : List Op) (p : Place) : Prop :=
  ∃ before op after w', ops = before ++ op :: after ∧ runOps before w = .ok () w' ∧ p ∈ w'.writes op

/-- From `w` to `w'` by the write accessors, for the places `log` in turn. -/
inductive Accessed : CowBook → List Place → CowBook → Prop
  | nil {w : CowBook} : Accessed w [] w
  | reads {w w₁ w' : CowBook} {log : List Place} :
      SameCells w w₁ → Accessed w₁ log w' → Accessed w log w'
  | order {w w₁ w' : CowBook} {slot : Nat} {write : Order → Order} {o : Order} {log : List Place} :
      orderMut slot write w = .ok o w₁ → Accessed w₁ log w' → Accessed w (.order slot :: log) w'
  | level {w w₁ w' : CowBook} {side t : Nat} {write : PriceLevel → PriceLevel} {l : PriceLevel}
      {log : List Place} :
      levelMut side t write w = .ok l w₁ → Accessed w₁ log w' → Accessed w (.level side t :: log) w'

variable {w w' w₁ : CowBook} {log log' : List Place} {α β : Type}

theorem Accessed.append (h : Accessed w log w₁) (h' : Accessed w₁ log' w') :
    Accessed w (log ++ log') w' := by
  induction h with
  | nil => exact h'
  | reads hs _ ih => exact .reads hs (ih h')
  | order e _ ih => exact .order e (ih h')
  | level e _ ih => exact .level e (ih h')

/-- A program that makes the accesses `log` if it ends. -/
def Makes (x : Run CowBook α) (w : CowBook) (log : List Place) : Prop :=
  ∀ a w', x w = .ok a w' → Accessed w log w'

namespace Makes

theorem of_reads {x : Run CowBook α} (hx : Reads x) (w : CowBook) : Makes x w [] := by
  intro a w' e
  have hs := hx w
  rw [last_ok e] at hs
  exact .reads hs .nil

theorem bind {x : Run CowBook α} {k : α → Run CowBook β} (hx : Makes x w log)
    (hk : ∀ a w₁, x w = .ok a w₁ → Makes (k a) w₁ log') : Makes (x >>= k) w (log ++ log') := by
  intro b w' e
  obtain ⟨a, w₁, e₁, e₂⟩ := bind_eq_ok.mp e
  exact (hx a w₁ e₁).append (hk a w₁ e₁ b w' e₂)

/-- A read comes first; what it gave is known. -/
theorem reads_bind {x : Run CowBook α} {k : α → Run CowBook β} (hx : Reads x)
    (hk : ∀ a w₁, x w = .ok a w₁ → SameCells w w₁ → Makes (k a) w₁ log) : Makes (x >>= k) w log := by
  intro b w' e
  obtain ⟨a, w₁, e₁, e₂⟩ := bind_eq_ok.mp e
  have hs := hx w
  rw [last_ok e₁] at hs
  exact .reads hs (hk a w₁ e₁ hs b w' e₂)

/-- If the program ends, so does its first part, and what this gave is known. -/
theorem knowing {x : Run CowBook α} {k : α → Run CowBook β}
    (h : ∀ a w₁, x w = .ok a w₁ → Makes (x >>= k) w log) : Makes (x >>= k) w log := by
  intro b w' e
  obtain ⟨a, w₁, e₁, -⟩ := bind_eq_ok.mp e
  exact h a w₁ e₁ b w' e

theorem orderMut (slot : Nat) (write : Order → Order) (w : CowBook) :
    Makes (orderMut slot write) w [.order slot] := fun _ _ e => .order e .nil

theorem levelMut (side t : Nat) (write : PriceLevel → PriceLevel) (w : CowBook) :
    Makes (levelMut side t write) w [.level side t] := fun _ _ e => .level e .nil

/-- A write to a slot that may be the sentinel, and what follows. -/
theorem link {slot : Nat} {write : Order → Order} {k : Run CowBook β}
    (hk : ∀ w₁, Makes k w₁ log) : Makes
      (if slot ≠ NIL then CowBook.orderMut slot write >>= fun _ => k else k) w
      ((if slot ≠ NIL then [.order slot] else []) ++ log) := by
  split
  · exact (orderMut slot write w).bind fun _ w₁ _ => hk w₁
  · exact hk w

end Makes

theorem order_eq_ok {slot : Nat} {o : Order} (e : order slot w = .ok o w') :
    w' = w ∧ w.order? slot = some o := by
  unfold order at e
  split at e
  · cases e
    exact ⟨rfl, ‹_›⟩
  · cases e

theorem level_eq_ok {side t : Nat} {l : PriceLevel} (e : level side t w = .ok l w') :
    w' = w ∧ w.level? side t = some l := by
  unfold level at e
  split at e
  · cases e
    exact ⟨rfl, ‹_›⟩
  · cases e

theorem tickOf_eq_ok {price : Int} {t : Nat} (e : tickOf price w = .ok t w') :
    w' = w ∧ t = w.levelOf price := by
  simp only [tickOf, get_bind, gridTick, ite_run] at e
  split at e
  · cases e
  · split at e
    · cases e
    · cases e
      exact ⟨rfl, rfl⟩

theorem removeId_eq_ok {orderId : Int} {text : String} {slot : Nat}
    (e : removeId orderId text w = .ok slot w') :
    w.idmap orderId = some slot ∧ w' = { w with idmap := w.idmap.remove orderId } := by
  unfold removeId at e
  split at e
  · cases e
    exact ⟨‹_›, rfl⟩
  · cases e

theorem getSlot_eq_ok {orderId : Int} {slot : Nat} (e : getSlot orderId w = .ok slot w') :
    w.idmap orderId = some slot ∧ w' = w := by
  unfold getSlot at e
  split at e
  · cases e
    exact ⟨‹_›, rfl⟩
  · cases e

theorem allocSlot_eq_ok {slot : Nat} (e : allocSlot w = .ok slot w') : slot = w.nextSlot := by
  simp only [allocSlot, get_bind, ite_run] at e
  unfold nextSlot
  split at e
  · obtain ⟨o, w₁, -, e⟩ := bind_eq_ok.mp e
    cases e
    rw [if_pos ‹_›]
  · rw [if_neg ‹_›]
    split at e
    · cases e
    · cases e
      rfl

theorem SameCells.level?_eq (h : SameCells w w') (side t : Nat) :
    w'.level? side t = w.level? side t := by
  simp only [level?, lane, h.mem, h.bidChunks, h.askChunks]

theorem orderMut_eq_ok {slot : Nat} {write : Order → Order} {o : Order} (hw : w.Tabled)
    (e : orderMut slot write w = .ok o w') :
    w.order? slot = some o ∧ w'.order? slot = some (write o) ∧
      ∀ price, w'.levelOf price = w.levelOf price := by
  unfold orderMut at e
  cases eo : own w.mem.orders w.orderChunks w.gen (slot / w.chunk) with
  | none => simp only [eo, reduceCtorEq] at e
  | some p =>
    obtain ⟨heap, table⟩ := p
    cases hg : Epoch.get heap table w.chunk slot with
    | none => simp only [eo, hg, reduceCtorEq] at e
    | some o' =>
      simp only [eo, hg, EStateM.Result.ok.injEq] at e
      obtain ⟨rfl, rfl⟩ := e
      refine ⟨(own_get hw.orders eo).symm.trans hg, ?_, fun _ => rfl⟩
      change Epoch.get (put heap table w.chunk slot _) table w.chunk slot = _
      rw [put_get (own_held hw.orders eo) (by rw [hg]; rfl), if_pos rfl]

theorem unlink_makes {slot : Nat} {o : Order} (hget : w.order? slot = some o) (side t : Nat)
    (rem : Int) : Makes (unlink slot side t rem) w (links o ++ [.level side t]) := by
  unfold unlink
  refine Makes.reads_bind (order_reads slot) fun o' w₁ e _ => ?_
  obtain ⟨rfl, hget'⟩ := order_eq_ok e
  rw [hget] at hget'
  cases hget'
  rw [links, List.append_assoc]
  refine Makes.link fun w₁ => Makes.link fun w₂ => ?_
  exact (Makes.levelMut side t _ w₂).bind fun _ w₃ _ => .of_reads (Along.pure _) w₃

/-- What a removal does once it has its order. -/
theorem remove_makes {slot : Nat} {o : Order} (hget : w.order? slot = some o) (price : Int)
    (side : Nat) (rem : Int) : Makes (do
      let t ← tickOf price
      unlink slot side t rem
      freeSlot slot
      repairBest side t) w (links o ++ [.level side (w.levelOf price), .order slot]) := by
  refine Makes.reads_bind (tickOf_reads price) fun t w₁ e _ => ?_
  obtain ⟨rfl, rfl⟩ := tickOf_eq_ok e
  have hlog : links o ++ [.level side (w₁.levelOf price), .order slot] =
      (links o ++ [.level side (w₁.levelOf price)]) ++ [.order slot] := by simp
  rw [hlog]
  refine (unlink_makes hget side _ rem).bind fun _ w₂ _ => ?_
  have hfree : Makes (freeSlot slot) w₂ [.order slot] := by
    refine Makes.reads_bind (x := get) (Along.read fun _ => rfl) fun _ w₃ _ _ => ?_
    refine (Makes.orderMut slot _ w₃).bind fun _ w₄ _ => .of_reads ?_ w₄
    exact Along.modify fun _ => ⟨rfl, rfl, rfl, rfl, rfl, rfl⟩
  exact hfree.bind fun _ w₃ _ => .of_reads (repairBest_reads side _) w₃

theorem insert_makes (orderId price qty : Int) (side : Nat) :
    Makes (insert orderId price qty side) w (w.writes (.insert orderId price qty side)) := by
  unfold insert
  refine Makes.reads_bind (tickOf_reads price) fun t w₁ e _ => ?_
  obtain ⟨rfl, rfl⟩ := tickOf_eq_ok e
  refine Makes.reads_bind allocSlot_reads fun slot w₂ e hs => ?_
  obtain rfl := allocSlot_eq_ok e
  refine Makes.reads_bind (level_reads side _) fun lvl w₃ e _ => ?_
  obtain ⟨rfl, hlvl⟩ := level_eq_ok e
  rw [hs.level?_eq] at hlvl
  rw [writes, hlvl, Option.elim_some]
  refine (Makes.orderMut w₁.nextSlot _ w₃).bind fun _ w₄ _ => ?_
  refine (Makes.levelMut side _ _ w₄).bind fun _ w₅ _ => ?_
  have hend : ∀ w₆, Makes (do
      modify fun w => { w with idmap := w.idmap.insert orderId w₁.nextSlot }
      noteBest side (w₁.levelOf price)) w₆ [] := fun w₆ =>
    .of_reads (Along.bind (fun _ => ⟨rfl, rfl, rfl, rfl, rfl, rfl⟩) fun _ => noteBest_reads side _) w₆
  simpa only [List.append_nil] using Makes.link hend

/-- A call that ends has made its writes. -/
theorem apply_makes (hw : w.Tabled) (op : Op) : Makes (apply op) w (w.writes op) := by
  cases op with
  | insert orderId price qty side => exact insert_makes orderId price qty side
  | update orderId fillQty =>
    refine Makes.reads_bind (getSlot_reads orderId) fun slot w₁ e _ => ?_
    obtain ⟨hid, rfl⟩ := getSlot_eq_ok e
    refine Makes.knowing fun o w₂ e => ?_
    obtain ⟨hget, -, hlevel⟩ := orderMut_eq_ok hw e
    rw [writes, found, hid, Option.bind_some, hget, Option.map_some, Option.elim_some]
    refine (Makes.orderMut slot _ w₁).bind fun o' w₂' e' => ?_
    rw [e] at e'
    cases e'
    refine Makes.reads_bind (tickOf_reads o.price) fun t w₃ e _ => ?_
    obtain ⟨rfl, rfl⟩ := tickOf_eq_ok e
    rw [hlevel]
    exact (Makes.levelMut o.side _ _ w₃).bind fun _ w₄ _ => .of_reads (Along.pure _) w₄
  | cancel orderId =>
    refine Makes.reads_bind (removeId_reads orderId _) fun slot w₁ e _ => ?_
    obtain ⟨hid, rfl⟩ := removeId_eq_ok e
    refine Makes.reads_bind (order_reads slot) fun o w₂ e _ => ?_
    obtain ⟨rfl, hget⟩ := order_eq_ok e
    have hget' : w.order? slot = some o := hget
    rw [writes, found, hid, Option.bind_some, hget', Option.map_some, Option.elim_some]
    exact remove_makes hget o.price o.side _
  | fill orderId =>
    refine Makes.reads_bind (removeId_reads orderId _) fun slot w₁ e hs => ?_
    obtain ⟨hid, rfl⟩ := removeId_eq_ok e
    refine Makes.knowing fun o w₂ e => ?_
    obtain ⟨hget, hput, hlevel⟩ := orderMut_eq_ok (hw.same hs) e
    have hget' : w.order? slot = some o := hget
    rw [writes, found, hid, Option.bind_some, hget', Option.map_some, Option.elim_some]
    refine (Makes.orderMut slot _ _).bind fun o' w₂' e' => ?_
    rw [e] at e'
    cases e'
    have hrest := remove_makes hput o.price o.side (i64 (o.qty - o.filled))
    rwa [hlevel] at hrest

theorem Accessed.tabled (h : Accessed w log w') (hw : w.Tabled) : w'.Tabled := by
  induction h with
  | nil => exact hw
  | reads hs _ ih => exact ih (hw.same hs)
  | @order w w₁ w' slot write o log e _ ih =>
    have h := hw.orderMut slot write
    rw [last_ok e] at h
    exact ih h
  | @level w w₁ w' side t write l log e _ ih =>
    have h := hw.levelMut side t write
    rw [last_ok e] at h
    exact ih h

/-- What the accesses `log` have made of the chunks of `w₀`. -/
structure Grown (w₀ : CowBook) (log : List Place) (w : CowBook) : Prop where
  gen : w.gen = w₀.gen
  chunk : w.chunk = w₀.chunk
  orders : Copied w₀.gen w₀.orderChunks w.mem.orders w.orderChunks
  bids : Copied w₀.gen w₀.bidChunks w.mem.levels w.bidChunks
  asks : Copied w₀.gen w₀.askChunks w.mem.levels w.askChunks
  orderCopies : w.mem.orders.size = w₀.mem.orders.size + replaced w₀.orderChunks w.orderChunks
  levelCopies : w.mem.levels.size = w₀.mem.levels.size + replaced w₀.bidChunks w.bidChunks +
    replaced w₀.askChunks w.askChunks
  ordersIn : ∀ ci, w.orderChunks[ci]? ≠ w₀.orderChunks[ci]? →
    ∃ slot, .order slot ∈ log ∧ slot / w₀.chunk = ci
  bidsIn : ∀ ci, w.bidChunks[ci]? ≠ w₀.bidChunks[ci]? →
    ∃ t, .level 0 t ∈ log ∧ t / LEVEL_CHUNK = ci
  asksIn : ∀ ci, w.askChunks[ci]? ≠ w₀.askChunks[ci]? →
    ∃ side t, side ≠ 0 ∧ .level side t ∈ log ∧ t / LEVEL_CHUNK = ci

namespace Grown

variable {w₀ : CowBook}

theorem start (hw : w.Tabled) : Grown w [] w where
  gen := rfl
  chunk := rfl
  orders := hw.orders.copied _
  bids := hw.bids.copied _
  asks := hw.asks.copied _
  orderCopies := by simp only [replaced_self, Nat.add_zero]
  levelCopies := by simp only [replaced_self, Nat.add_zero]
  ordersIn := fun _ hne => absurd rfl hne
  bidsIn := fun _ hne => absurd rfl hne
  asksIn := fun _ hne => absurd rfl hne

theorem same (h : Grown w₀ log w) (hs : SameCells w w') : Grown w₀ log w' := by
  obtain ⟨hmem, hgen, hchunk, ho, hb, ha⟩ := hs
  constructor
  · exact hgen.trans h.gen
  · exact hchunk.trans h.chunk
  · rw [hmem, ho]
    exact h.orders
  · rw [hmem, hb]
    exact h.bids
  · rw [hmem, ha]
    exact h.asks
  · rw [hmem, ho]
    exact h.orderCopies
  · rw [hmem, hb, ha]
    exact h.levelCopies
  · rw [ho]
    exact h.ordersIn
  · rw [hb]
    exact h.bidsIn
  · rw [ha]
    exact h.asksIn

theorem order (h : Grown w₀ log w) {slot : Nat} {write : Order → Order} {o : Order}
    (e : orderMut slot write w = .ok o w') : Grown w₀ (log ++ [.order slot]) w' := by
  unfold orderMut at e
  cases eo : own w.mem.orders w.orderChunks w.gen (slot / w.chunk) with
  | none => simp only [eo, reduceCtorEq] at e
  | some p =>
    obtain ⟨heap, table⟩ := p
    cases hg : Epoch.get heap table w.chunk slot with
    | none => simp only [eo, hg, reduceCtorEq] at e
    | some o' =>
      simp only [eo, hg, EStateM.Result.ok.injEq] at e
      obtain ⟨-, rfl⟩ := e
      rw [h.gen] at eo
      obtain ⟨hcopied, hcount, hothers⟩ := h.orders.own eo
      have hsize := h.orderCopies
      refine ⟨h.gen, h.chunk, ?_, h.bids, h.asks, ?_, h.levelCopies, fun ci hne => ?_,
        fun ci hne => ?_, fun ci hne => ?_⟩
      · exact hcopied.grow (Nat.le_of_eq (put_size ..).symm) put_born_eq
      · change (put heap table w.chunk slot _).size = _ + replaced _ table
        rw [put_size]
        omega
      · by_cases hci : ci = slot / w.chunk
        · exact ⟨slot, by simp, by rw [hci, h.chunk]⟩
        · obtain ⟨s, hs, hdiv⟩ := h.ordersIn ci (by rw [← hothers ci hci]; exact hne)
          exact ⟨s, List.mem_append_left _ hs, hdiv⟩
      · obtain ⟨t, ht, hdiv⟩ := h.bidsIn ci hne
        exact ⟨t, List.mem_append_left _ ht, hdiv⟩
      · obtain ⟨side, t, hside, ht, hdiv⟩ := h.asksIn ci hne
        exact ⟨side, t, hside, List.mem_append_left _ ht, hdiv⟩

theorem level (h : Grown w₀ log w) {side t : Nat} {write : PriceLevel → PriceLevel} {l : PriceLevel}
    (e : levelMut side t write w = .ok l w') : Grown w₀ (log ++ [.level side t]) w' := by
  unfold levelMut at e
  cases eo : own w.mem.levels (w.lane side) w.gen (t / LEVEL_CHUNK) with
  | none => simp only [eo, reduceCtorEq] at e
  | some p =>
    obtain ⟨heap, table⟩ := p
    cases hg : Epoch.get heap table LEVEL_CHUNK t with
    | none => simp only [eo, hg, reduceCtorEq] at e
    | some l' =>
      simp only [eo, hg, EStateM.Result.ok.injEq] at e
      obtain ⟨-, rfl⟩ := e
      rw [h.gen] at eo
      have hsize := h.levelCopies
      have hput := put_size heap table LEVEL_CHUNK t (write l')
      have horders : ∀ ci, w.orderChunks[ci]? ≠ w₀.orderChunks[ci]? →
          ∃ slot, .order slot ∈ log ++ [.level side t] ∧ slot / w₀.chunk = ci := fun ci hne => by
        obtain ⟨s, hs, hdiv⟩ := h.ordersIn ci hne
        exact ⟨s, List.mem_append_left _ hs, hdiv⟩
      have hother : ∀ {start other}, Copied w₀.gen start w.mem.levels other →
          Copied w₀.gen start (put heap table LEVEL_CHUNK t (write l')) other := fun hc =>
        (hc.grow (own_size eo) (own_born_eq eo)).grow (Nat.le_of_eq hput.symm) put_born_eq
      unfold lane at eo
      unfold setLevels
      by_cases hside : side = 0
      · rw [if_pos hside] at eo ⊢
        obtain ⟨hcopied, hcount, hothers⟩ := h.bids.own eo
        refine ⟨h.gen, h.chunk, h.orders, hcopied.grow (Nat.le_of_eq hput.symm) put_born_eq,
          hother h.asks, h.orderCopies, ?_, horders, fun ci hne => ?_, fun ci hne => ?_⟩
        · dsimp only
          omega
        · by_cases hci : ci = t / LEVEL_CHUNK
          · exact ⟨t, by simp [hside], hci.symm⟩
          · obtain ⟨u, hu, hdiv⟩ := h.bidsIn ci (by rw [← hothers ci hci]; exact hne)
            exact ⟨u, List.mem_append_left _ hu, hdiv⟩
        · obtain ⟨s, u, hs, hu, hdiv⟩ := h.asksIn ci hne
          exact ⟨s, u, hs, List.mem_append_left _ hu, hdiv⟩
      · rw [if_neg hside] at eo ⊢
        obtain ⟨hcopied, hcount, hothers⟩ := h.asks.own eo
        refine ⟨h.gen, h.chunk, h.orders, hother h.bids,
          hcopied.grow (Nat.le_of_eq hput.symm) put_born_eq, h.orderCopies, ?_, horders,
          fun ci hne => ?_, fun ci hne => ?_⟩
        · dsimp only
          omega
        · obtain ⟨u, hu, hdiv⟩ := h.bidsIn ci hne
          exact ⟨u, List.mem_append_left _ hu, hdiv⟩
        · by_cases hci : ci = t / LEVEL_CHUNK
          · exact ⟨side, t, hside, by simp, hci.symm⟩
          · obtain ⟨s, u, hs, hu, hdiv⟩ := h.asksIn ci (by rw [← hothers ci hci]; exact hne)
            exact ⟨s, u, hs, List.mem_append_left _ hu, hdiv⟩

theorem accessed (h : Grown w₀ log w) (ha : Accessed w log' w') : Grown w₀ (log ++ log') w' := by
  induction ha generalizing log with
  | nil => rwa [List.append_nil]
  | reads hs _ ih => exact ih (h.same hs)
  | order e _ ih =>
    have h' := ih (h.order e)
    rwa [List.append_assoc] at h'
  | level e _ ih =>
    have h' := ih (h.level e)
    rwa [List.append_assoc] at h'

end Grown

/-- What a run of calls has written, none of which stops. -/
theorem runOps_accessed {ops : List Op} (hw : w.Tabled) (e : runOps ops w = .ok () w') :
    ∃ log, Accessed w log w' ∧ ∀ p ∈ log, w.Writes ops p := by
  induction ops generalizing w with
  | nil =>
    cases e
    exact ⟨[], .nil, nofun⟩
  | cons op ops ih =>
    obtain ⟨w₁, e₁, e₂⟩ := runAll_cons_eq_ok.mp e
    have h₁ := apply_makes hw op () w₁ e₁
    obtain ⟨log, h₂, hlog⟩ := ih (h₁.tabled hw) e₂
    refine ⟨w.writes op ++ log, h₁.append h₂, fun p hp => ?_⟩
    obtain hp | hp := List.mem_append.mp hp
    · exact ⟨[], op, ops, w, rfl, rfl, hp⟩
    · obtain ⟨before, op', after, w₂, rfl, e', hp⟩ := hlog p hp
      exact ⟨op :: before, op', after, w₂, rfl, runAll_cons_eq_ok.mpr ⟨w₁, e₁, e'⟩, hp⟩

/-- The tables of a book with a past, calls that stopped included. -/
theorem acts_tabled {s : Shared} (h : s.book.Tabled) (as : List Action) :
    (s.acts as).book.Tabled := by
  induction as generalizing s with
  | nil => exact h
  | cons a as ih =>
    refine ih (s := s.act a) ?_
    cases a with
    | op op => exact tabled_cellwise.apply op s.book h
    | capture => exact ⟨h.orders, h.bids, h.asks, h.apart⟩
    | drop i => exact h

/-- From a capture on, up to the next one and as long as no call stops: there are as many
copies as there are chunks that were replaced, a chunk was replaced only if a call wrote to
it, all others are those of the root, and no read replaces anything. -/
theorem copies_minimal {w₀ : CowBook} (hstart : w₀.Starts) {as : List Action} {r : Root}
    {w w' : CowBook} (hcapture : capture (Shared.acts ⟨w₀, []⟩ as).book = .ok r w) {ops : List Op}
    (hrun : runOps ops w = .ok () w') :
    w'.mem.orders.size = w.mem.orders.size + replaced r.orderChunks w'.orderChunks ∧
    w'.mem.levels.size = w.mem.levels.size + replaced r.bidChunks w'.bidChunks +
      replaced r.askChunks w'.askChunks ∧
    (∀ ci, w'.orderChunks[ci]? = r.orderChunks[ci]? ∨
      ∃ slot, w.Writes ops (.order slot) ∧ slot / r.chunk = ci) ∧
    (∀ ci, w'.bidChunks[ci]? = r.bidChunks[ci]? ∨
      ∃ t, w.Writes ops (.level 0 t) ∧ t / LEVEL_CHUNK = ci) ∧
    (∀ ci, w'.askChunks[ci]? = r.askChunks[ci]? ∨
      ∃ side t, side ≠ 0 ∧ w.Writes ops (.level side t) ∧ t / LEVEL_CHUNK = ci) ∧
    ∀ (v : CowBook) slot side t, SameCells v (last (order slot) v) ∧
      SameCells v (last (level side t) v) ∧ SameCells v (last allocSlot v) ∧
      SameCells v (last (repairBest side t) v) := by
  have htabled : w.Tabled := by
    have h := acts_tabled (s := ⟨w₀, []⟩) hstart.sound.1.toTabled as
    cases hcapture
    exact ⟨h.orders, h.bids, h.asks, h.apart⟩
  have hroot : r.orderChunks = w.orderChunks ∧ r.bidChunks = w.bidChunks ∧
      r.askChunks = w.askChunks ∧ r.chunk = w.chunk := by
    cases hcapture
    exact ⟨rfl, rfl, rfl, rfl⟩
  obtain ⟨ho, hb, ha, hc⟩ := hroot
  rw [ho, hb, ha, hc]
  obtain ⟨log, haccessed, hlog⟩ := runOps_accessed htabled hrun
  have h : Grown w log w' := (Grown.start htabled).accessed haccessed
  refine ⟨h.orderCopies, h.levelCopies, fun ci => ?_, fun ci => ?_, fun ci => ?_,
    fun v slot side t => ⟨order_reads slot v, level_reads side t v, allocSlot_reads v,
      repairBest_reads side t v⟩⟩
  · refine or_iff_not_imp_left.mpr fun hne => ?_
    obtain ⟨slot, hmem, hdiv⟩ := h.ordersIn ci hne
    exact ⟨slot, hlog _ hmem, hdiv⟩
  · refine or_iff_not_imp_left.mpr fun hne => ?_
    obtain ⟨t, hmem, hdiv⟩ := h.bidsIn ci hne
    exact ⟨t, hlog _ hmem, hdiv⟩
  · refine or_iff_not_imp_left.mpr fun hne => ?_
    obtain ⟨side, t, hside, hmem, hdiv⟩ := h.asksIn ci hne
    exact ⟨side, t, hside, hlog _ hmem, hdiv⟩

theorem copies_minimal_insert : ∃ w₀ r w w', Starts w₀ ∧
    capture (Shared.acts ⟨w₀, []⟩ [.op (.insert 1 0 1 0)]).book = .ok r w ∧
    runOps [.cancel 1] w = .ok () w' ∧
    w'.mem.orders.size = w.mem.orders.size + replaced r.orderChunks w'.orderChunks := by
  have hruns : ((new oneSlot).toOption.bind fun w₀ =>
      (runOps [.cancel 1] (last capture (Shared.acts ⟨w₀, []⟩ [.op (.insert 1 0 1 0)]).book)).casesOn
        (fun _ _ => some ()) fun _ _ => none) = some () := by decide +kernel
  obtain ⟨w₀, e₀, -⟩ := new_mirrors (show 1 ≤ oneSlot.chunk by decide)
  rw [e₀] at hruns
  simp only [Except.toOption, Option.bind_some] at hruns
  have hstart : w₀.Starts := .inl ⟨_, e₀⟩
  cases e : runOps [.cancel 1]
      (last capture (Shared.acts ⟨w₀, []⟩ [.op (.insert 1 0 1 0)]).book) with
  | error p w' =>
    rw [e] at hruns
    cases hruns
  | ok a w' => exact ⟨w₀, _, _, w', hstart, rfl, e, (copies_minimal hstart rfl e).1⟩

/-- `smallBook` with a pool of three slots, which leaves its second chunk half full. -/
def oddPool : SmrConfig := { smallBook with cap := 3 }

/-- An image of no order, with a level whose queue is said to end in slot 3. -/
def danglingTail : Image where
  scalars := ⟨-10, 5, 8, 3, 0, -1, -1, NIL⟩
  levelCount := 1
  levels := [⟨0, 0, 2, 3, 1, 1⟩]
  orderCount := 0
  orders := []

theorem writes_single {w : CowBook} {op : Op} {p : Place} (h : w.Writes [op] p) : p ∈ w.writes op := by
  obtain ⟨before, op', after, w', e, hrun, hp⟩ := h
  cases before with
  | nil =>
    cases hrun
    cases e
    exact hp
  | cons o before =>
    rw [List.cons_append, List.cons.injEq] at e
    cases List.append_ne_nil_of_right_ne_nil _ (List.cons_ne_nil _ _) e.2.symm

/-- A call that stops may have copied a chunk for nothing: on the book restored from
`danglingTail` an insert copies the chunk of slot 3 to link the tail, and there is no slot 3. -/
theorem copied_unwritten : ∃ w₀ r w p w',
    restoreCow Bytes.crc32c (Encoder.sealed Bytes.crc32c danglingTail) oddPool = .ok w₀ ∧
    capture w₀ = .ok r w ∧ runOps [.insert 5 (-10) 1 0] w = .error p w' ∧
    w'.orderChunks[1]? ≠ r.orderChunks[1]? ∧
    ∀ slot, slot / r.chunk = 1 → w'.order? slot = w.order? slot ∧
      (w.order? slot ≠ none → ¬ w.Writes [.insert 5 (-10) 1 0] (.order slot)) := by
  have hcrc : restoreCow Bytes.crc32c (Encoder.sealed Bytes.crc32c danglingTail) oddPool =
      restoreCow (fun _ => 0) (Encoder.sealed (fun _ => 0) danglingTail) oddPool := by
    rw [restoreCow, restoreCow, Decoder.checked_sealed, Decoder.checked_sealed]
  rw [hcrc]
  have h : ((restoreCow (fun _ => 0) (Encoder.sealed (fun _ => 0) danglingTail)
      oddPool).toOption.bind fun w₀ => (runOps [.insert 5 (-10) 1 0] (last capture w₀)).casesOn
        (fun _ _ => none) fun _ w' => some ([some w₀.chunk, w₀.orderChunks[1]?, w'.orderChunks[1]?],
          (last capture w₀).writes (.insert 5 (-10) 1 0),
          [2, 3].map (last capture w₀).order? ++ [2, 3].map w'.order?)) =
      some ([some 2, some 1, some 3], [.order 0, .level 0 0, .order 3],
        [some Order.zero, none, some Order.zero, none]) := by decide +kernel
  cases e₀ : restoreCow (fun _ => 0) (Encoder.sealed (fun _ => 0) danglingTail) oddPool with
  | error f =>
    rw [e₀] at h
    cases h
  | ok w₀ =>
    rw [e₀] at h
    simp only [Except.toOption, Option.bind_some] at h
    cases e : runOps [.insert 5 (-10) 1 0] (last capture w₀) with
    | ok a w' =>
      rw [e] at h
      cases h
    | error p w' =>
      rw [e] at h
      simp only [Option.some.injEq, Prod.mk.injEq, List.map_cons, List.map_nil,
        List.cons_append, List.nil_append, List.cons.injEq, and_true] at h
      obtain ⟨⟨hchunk, htable, htable'⟩, hwrites, h₂, h₃, h₂', h₃'⟩ := h
      refine ⟨w₀, _, _, p, w', rfl, rfl, e, ?_, fun slot hslot => ?_⟩
      · change w'.orderChunks[1]? ≠ w₀.orderChunks[1]?
        rw [htable, htable']
        decide
      · change slot / w₀.chunk = 1 at hslot
        rw [hchunk] at hslot
        obtain rfl | rfl : slot = 2 ∨ slot = 3 := by omega
        · refine ⟨h₂'.trans h₂.symm, fun _ hw => ?_⟩
          have hmem : Place.order 2 ∈ (last capture w₀).writes (.insert 5 (-10) 1 0) := writes_single hw
          rw [hwrites] at hmem
          revert hmem
          decide
        · exact ⟨h₃'.trans h₃.symm, fun hne => absurd h₃ hne⟩

end CowBook

end HiPerf
