import HiPerf.Book.Swap
import HiPerf.Digest.Same
import HiPerf.Snapshot.Exact

/-!
Two books, one of which fills some of the orders the other cancels. A caller
cannot tell them apart, nor can their digests; their images differ in what
blank slots have left over.
-/

namespace HiPerf

open Machine Exec Bytes

/-- Two records of the same slot that only differ in what is left over have
their difference in the field `filled`. -/
theorem differ_order {slot : Nat} {o o' : Order} (h : o.blot = o'.blot) {i : Nat}
    (hne : (bytes (orderFields (slot, o)))[i]? ≠ (bytes (orderFields (slot, o')))[i]?) :
    o.orderId = 0 ∧ 28 ≤ i ∧ i < 36 := by
  have hid : o.orderId = o'.orderId := by simpa using congrArg Order.orderId h
  by_cases h0 : o.orderId = 0
  · refine ⟨h0, ?_⟩
    have h0' : o'.orderId = 0 := hid ▸ h0
    simp only [Order.blot, if_pos h0, if_pos h0', Order.mk.injEq, true_and] at h
    obtain ⟨-, hprice, hqty, hnext, hprev, hside⟩ := h
    have hsplit : ∀ p : Order, orderFields (slot, p) =
        [(4, slot), (8, u64 p.orderId), (8, u64 p.price), (8, u64 p.qty)] ++ ([(8, u64 p.filled)] ++
          [(1, sideEnum p.side), (4, p.next), (4, p.prev)]) := fun p => rfl
    rw [hsplit, hsplit, hid, hprice, hqty, hnext, hprev, hside] at hne
    obtain ⟨-, hsame⟩ | ⟨hge, hne⟩ := differ_append rfl hne
    · exact absurd rfl hsame
    change 28 ≤ i at hge
    have hw : width [(8, u64 o.filled)] = width [(8, u64 o'.filled)] := rfl
    obtain ⟨hlt, -⟩ | ⟨-, hsame⟩ := differ_append hw hne
    · change i - 28 < 8 at hlt
      omega
    · exact absurd rfl hsame
  · have h0' : o'.orderId ≠ 0 := hid ▸ h0
    rw [Order.blot_of_live h0, Order.blot_of_live h0'] at h
    rw [h] at hne
    exact absurd rfl hne

theorem differ_orders {f f' : Flat} (h : f.blot = f'.blot) (slots : List Nat) {i : Nat}
    (hne : (bytes ((f.orderRecs slots).map orderFields).flatten)[i]? ≠
      (bytes ((f'.orderRecs slots).map orderFields).flatten)[i]?) :
    ∃ (k s : Nat), slots[k]? = some s ∧ (f.ord s).orderId = 0 ∧
      45 * k + 28 ≤ i ∧ i < 45 * k + 36 := by
  induction slots generalizing i with
  | nil => exact absurd rfl hne
  | cons s slots ih =>
    have hs : (f.ord s).blot = (f'.ord s).blot := congrFun (congrArg Flat.ord h) s
    simp only [Flat.orderRecs, List.map_cons, List.flatten_cons] at hne ih
    obtain ⟨-, hne⟩ | ⟨hge, hne⟩ := differ_append (by rw [orderFields_width, orderFields_width]) hne
    · obtain ⟨h0, hlo, hhi⟩ := differ_order hs hne
      exact ⟨0, s, rfl, h0, by omega, by omega⟩
    · rw [orderFields_width, ORDERS_BLOCK] at hge hne
      obtain ⟨k, s', hk, h0, hlo, hhi⟩ := ih hne
      exact ⟨k + 1, s', hk, h0, by omega, by omega⟩

/-- Two books with all in common but what their blank slots have left over. -/
structure Book.Twins (b b' : Book) : Prop where
  rest : b' = { b with pool := b'.pool }
  size : b'.pool.size = b.pool.size
  slot : ∀ s, (b'.slot s).blot = (b.slot s).blot

section

variable {cap : Nat} {f f' : Flat} {b b' : Book}

theorem Flat.blot_eq_iff : f.blot = f'.blot ↔
    f' = { f with ord := f'.ord } ∧ ∀ s, (f'.ord s).blot = (f.ord s).blot := by
  cases f
  cases f'
  simp only [Flat.blot, Flat.mk.injEq, true_and, funext_iff]
  grind

theorem Book.Shows.twins (hb : b.Shows cap f) (hb' : b'.Shows cap f') (hn : b.Narrow)
    (hn' : b'.Narrow) (e : f.blot = f'.blot) : b.Twins b' := by
  obtain ⟨hrest, hslot⟩ := Flat.blot_eq_iff.mp e
  have hlevels : b'.nLevels = b.nLevels := by
    have h : f'.grid = f.grid := (congrArg Flat.grid e).symm
    rw [← hb.view, ← hb'.view] at h
    exact congrArg Grid.nLevels h
  refine ⟨Book.eq_of_view ?_ rfl ?_ ?_, hb'.pool.trans hb.pool.symm, fun s => ?_⟩
  · have hview : ({ b with pool := b'.pool } : Book).view = { b.view with ord := b'.view.ord } := rfl
    rw [hview, hb.view, hb'.view]
    exact hrest
  · rw [hn'.bids, hlevels]
    exact hn.bids.symm
  · rw [hn'.asks, hlevels]
    exact hn.asks.symm
  · rw [hb.slot_eq, hb'.slot_eq]
    exact hslot s

theorem Flat.keptImage_blot (e : f.blot = f'.blot) (capacity : Nat) (slots : List Nat) :
    f'.keptImage capacity slots = { f.keptImage capacity slots with
      orders := f'.orderRecs (kept (u16 slots.length) slots) } ∧
    (f.keptImage capacity slots).orders = f.orderRecs (kept (u16 slots.length) slots) := by
  have hkept : ∀ g : Flat, kept (u16 slots.length) (g.orderRecs slots) =
      g.orderRecs (kept (u16 slots.length) slots) := fun g =>
    (foldl_push_map (fun s => (s, g.ord s)) _ slots []).symm
  refine ⟨?_, hkept f⟩
  rw [← hkept f', (Flat.blot_eq_iff.mp e).1]
  rfl

/-- The images of two such memories, but for their checksums, differ in the field
`filled` of blank slots. -/
theorem Flat.keptImage_differ (e : f.blot = f'.blot) (capacity : Nat) (slots : List Nat) {i : Nat}
    (hne : (bytes (f.keptImage capacity slots).fields)[i]? ≠
      (bytes (f'.keptImage capacity slots).fields)[i]?) :
    ∃ k s o, (f.keptImage capacity slots).orders[k]? = some (s, o) ∧ o.orderId = 0 ∧
      56 + 25 * (f.keptImage capacity slots).levels.length + 45 * k + 28 ≤ i ∧
      i < 56 + 25 * (f.keptImage capacity slots).levels.length + 45 * k + 36 := by
  obtain ⟨he, horders⟩ := Flat.keptImage_blot e capacity slots
  set m := f.keptImage capacity slots
  have hprefix : (f'.keptImage capacity slots).prefixFields = m.prefixFields := by rw [he]; rfl
  have horders' : (f'.keptImage capacity slots).orders =
      f'.orderRecs (kept (u16 slots.length) slots) := by rw [he]
  rw [Image.fields, Image.fields, hprefix, horders, horders'] at hne
  obtain ⟨-, hsame⟩ | ⟨hge, hne⟩ := differ_append rfl hne
  · exact absurd rfl hsame
  · obtain ⟨k, s, hk, h0, hlo, hhi⟩ := differ_orders e _ hne
    rw [Image.prefixFields_width, LEVELS_BLOCK] at hge hlo hhi
    refine ⟨k, s, f.ord s, ?_, h0, by omega, by omega⟩
    rw [horders, Flat.orderRecs, List.getElem?_map, hk]
    rfl

/-- Both encode, and their images differ as they may, or neither does. -/
structure Book.ImagesAgree (crc32c : List UInt8 → UInt32) (b b' : Book) (buf : List UInt8) : Prop where
  stops : (∃ p, b.encode crc32c buf = .error p) ↔ ∃ p, b'.encode crc32c buf = .error p
  differ : ∀ data len data' len', b.encode crc32c buf = .ok (data, len) →
    b'.encode crc32c buf = .ok (data', len') → len' = len ∧ ∀ i < len - 4, data[i]? ≠ data'[i]? →
      ∃ k s o, b.source.image.orders[k]? = some (s, o) ∧ o.orderId = 0 ∧
        56 + 25 * b.source.image.levels.length + 45 * k + 28 ≤ i ∧
        i < 56 + 25 * b.source.image.levels.length + 45 * k + 36

theorem Book.Shows.imagesAgree (hb : b.Shows cap f) (hb' : b'.Shows cap f') (hn : b.Narrow)
    (hn' : b'.Narrow) {L L' : Ledger} {q q' : Lane → Nat → List Nat} (h : Rep f L q)
    (h' : Rep f' L' q') (hcap : f.hwm ≤ cap) (e : f.blot = f'.blot) (crc32c : List UInt8 → UInt32)
    {buf : List UInt8} (hbuf : b.source.room ≤ buf.length) : b.ImagesAgree crc32c b' buf := by
  have hhwm : f'.hwm = f.hwm := (congrArg Flat.hwm e).symm
  have himage := hb.keptImage_eq hn hcap
  have himage' := hb'.keptImage_eq hn' (hhwm ▸ hcap)
  rw [hhwm] at himage'
  have hrecs : b'.source.levelRecs = b.source.levelRecs := by
    rw [hb.levelRecs_eq hn, hb'.levelRecs_eq hn', (Flat.blot_eq_iff.mp e).1]
    rfl
  have hmark : b'.source.scalars.hwm = b.source.scalars.hwm := by
    rw [hwm_source hb, hwm_source hb', hhwm]
  have hroom : b'.source.room = b.source.room := by
    rw [Source.room, Source.room, hrecs, hmark]
  have hgroups : Encoder.NoEmptyGroup b'.source ↔ Encoder.NoEmptyGroup b.source := by
    rw [Encoder.NoEmptyGroup, Encoder.NoEmptyGroup, hrecs, hmark]
  have hread := source_readable hb h hcap
  have hread' := source_readable hb' h' (hhwm ▸ hcap)
  by_cases hg : Encoder.NoEmptyGroup b.source
  · obtain ⟨data, hrun, hdata⟩ := Encoder.encode_ok crc32c hread hg hbuf
    obtain ⟨data', hrun', hdata'⟩ :=
      Encoder.encode_ok crc32c hread' (hgroups.mpr hg) (hroom.symm ▸ hbuf)
    have hlen : width b'.source.image.fields = width b.source.image.fields := by
      have horders : ∀ g : Flat, ∀ ss, (g.orderRecs ss).length = ss.length :=
        fun g ss => List.length_map _
      rw [Image.width_fields, Image.width_fields, himage, himage',
        (Flat.keptImage_blot e _ _).2, (Flat.keptImage_blot e _ _).1, horders, horders]
    rw [hlen] at hrun' hdata'
    refine ⟨⟨?_, ?_⟩, fun d n d' n' hd hd' => ?_⟩
    · rintro ⟨p, hp⟩
      rw [Book.encode, hrun] at hp
      cases hp
    · rintro ⟨p, hp⟩
      rw [Book.encode, hrun'] at hp
      cases hp
    · rw [Book.encode, hrun] at hd
      rw [Book.encode, hrun'] at hd'
      cases hd
      cases hd'
      refine ⟨rfl, fun i hi hne => ?_⟩
      have hbody : ∀ (x : List UInt8) (m : Image), width m.fields = width b.source.image.fields →
          x.take (width b.source.image.fields + 4) = Encoder.sealed crc32c m →
          x[i]? = (bytes m.fields)[i]? := by
        intro x m hm hx
        have ht : (x.take (width b.source.image.fields + 4))[i]? = x[i]? :=
          List.getElem?_take_of_lt (by omega)
        rw [← ht, hx, Encoder.sealed, List.getElem?_append_left (by rw [bytes_length]; omega)]
      rw [hbody _ _ rfl hdata, hbody _ _ hlen hdata', himage, himage'] at hne
      rw [himage]
      exact Flat.keptImage_differ e _ _ hne
  · obtain ⟨p, hp⟩ := Encoder.encode_stops crc32c hread hg buf
    obtain ⟨p', hp'⟩ := Encoder.encode_stops crc32c hread' (mt hgroups.mp hg) buf
    refine ⟨⟨fun _ => ⟨p', hp'⟩, fun _ => ⟨p, hp⟩⟩, fun d n d' n' hd => ?_⟩
    rw [Book.encode, hp] at hd
    cases hd

end

namespace Book

variable {cfg : SmrConfig} {ops ops' : List Op}

theorem swap_completes (hg : cfg.grid.Ok) (hwf : WellFormed cfg [] ops) (hslots : SlotsFit [] ops)
    (hswap : List.Forall₂ Op.Swap ops ops') {b : Book} (hrun : run ops (new cfg) = .ok () b) :
    ∃ b' f f', run ops' (new cfg) = .ok () b' ∧ b.Shows cfg.cap f ∧ b'.Shows cfg.cap f' ∧
      f.Holds cfg.cap (Ledger.after [] ops) ∧ f'.Holds cfg.cap (Ledger.after [] ops) ∧
      f.blot = f'.blot := by
  have hready := run_completes hg (new_shows cfg) rfl (new_narrow cfg) (new_holds hg) hwf hslots hrun
  obtain ⟨hruns, hholds, -⟩ := run_ready rfl (new_holds hg) hready
  obtain ⟨e, hready', hledger⟩ := Op.Swap.steps_blot hswap (new_holds hg) hready rfl
  obtain ⟨hruns', hholds', -⟩ := run_ready rfl (new_holds hg) hready'
  obtain ⟨b₁, e₁, hb⟩ := hruns _ (new_shows cfg)
  obtain ⟨b', e', hb'⟩ := hruns' _ (new_shows cfg)
  rw [hrun] at e₁
  cases e₁
  exact ⟨b', _, _, e', hb, hb', hholds, hledger ▸ hholds', e⟩

/-- Whichever orders a run fills and whichever it cancels, it is stopped by the
same calls, and after each call before that the book, its digest and its image
are the same but for what blank slots have left over. -/
theorem fill_cancel_swap (hg : cfg.grid.Ok) (hwf : WellFormed cfg [] ops)
    (hslots : SlotsFit [] ops) (hswap : List.Forall₂ Op.Swap ops ops') (n : Nat) :
    ((∃ b, run (ops.take n) (new cfg) = .ok () b) ↔
      ∃ b', run (ops'.take n) (new cfg) = .ok () b') ∧
    ∀ b b', run (ops.take n) (new cfg) = .ok () b → run (ops'.take n) (new cfg) = .ok () b' →
      b.Twins b' ∧ digestBook b' = digestBook b ∧
      ∀ crc32c buf, b.source.room ≤ buf.length → b.ImagesAgree crc32c b' buf := by
  have htake := List.forall₂_take n hswap
  have htake' : List.Forall₂ Op.Swap (ops'.take n) (ops.take n) :=
    htake.flip.imp fun _ _ h => h.symm
  have hwf' := Op.Swap.wellFormed hswap hwf
  have hslots' := Op.Swap.slotsFit hswap hslots
  refine ⟨⟨fun ⟨b, e⟩ => ?_, fun ⟨b', e'⟩ => ?_⟩, fun b b' e e' => ?_⟩
  · obtain ⟨b', _, _, e', -⟩ := swap_completes hg (hwf.take n) (hslots.take n) htake e
    exact ⟨b', e'⟩
  · obtain ⟨b, _, _, e, -⟩ := swap_completes hg (hwf'.take n) (hslots'.take n) htake' e'
    exact ⟨b, e⟩
  · obtain ⟨b₁, f, f', e₁, hb, hb', ⟨q, fl, h, -, hcap⟩, ⟨q', fl', h', -, hcap'⟩, hblot⟩ :=
      swap_completes hg (hwf.take n) (hslots.take n) htake e
    rw [e'] at e₁
    cases e₁
    have hn := CowBook.run_narrow e
    have hn' := CowBook.run_narrow e'
    refine ⟨hb.twins hb' hn hn' hblot, ?_, fun crc32c buf hbuf =>
      hb.imagesAgree hb' hn hn' h h' hcap hblot crc32c hbuf⟩
    rw [hb.digest h hcap hn, hb'.digest h' hcap' hn', (Flat.blot_eq_iff.mp hblot).1]

/-- The small run with the other kind wherever it removes an order. -/
def smallRunSwapped : List Op :=
  [.insert 7 0 30 0, .insert 8 0 20 0, .insert 9 0 10 0, .update 7 12, .fill 8,
    .insert 11 25 4 1, .cancel 9]

theorem fill_cancel_swap_smallRun :
    ((∃ b, run (smallRun.take 6) (new smallBook) = .ok () b) ↔
      ∃ b', run (smallRunSwapped.take 6) (new smallBook) = .ok () b') ∧
    ∀ b b', run (smallRun.take 6) (new smallBook) = .ok () b →
      run (smallRunSwapped.take 6) (new smallBook) = .ok () b' →
      b.Twins b' ∧ digestBook b' = digestBook b ∧
      ∀ crc32c buf, b.source.room ≤ buf.length → b.ImagesAgree crc32c b' buf :=
  fill_cancel_swap smallBook_ok smallRun_wellFormed (smallRun_wellFormed.slotsFit (by decide))
    (.cons (.same _) (.cons (.same _) (.cons (.same _) (.cons (.same _) (.cons (.fillFor 8)
      (.cons (.same _) (.cons (.cancelFor 9) .nil))))))) 6

/-- Two levels, and more slots than slot numbers. -/
def secondLap : SmrConfig := ⟨4294967298, 2, 1, 0, 1, 1, 100⟩

theorem secondLap_ok : secondLap.grid.Ok := ⟨by decide, by decide, by decide, by decide, by decide⟩

/-- Once every slot number is taken the first slot is given out again, while
order 1 still has it; taking out order 1 then frees the slot of the later order,
which is updated all the same. -/
def lastOps (op : Op) : List Op :=
  [.insert (NIL + 1) 0 1 0, .insert (NIL + 2) 1 2 0, op, .update (NIL + 2) 1,
    .insert (NIL + 3) 1 1 0]

def lappedRun (op : Op) : List Op := bidsAt 0 NIL ++ lastOps op

/-- What holds of the resting orders all through it. -/
def Small (m : Nat) (L : Ledger) : Prop :=
  L.length ≤ 4294967297 ∧ ∀ r ∈ L, r.orderId ≤ m ∧ r.remaining ≤ 2

theorem Small.insert {m : Nat} {L : Ledger} (h : Small m L) (hm : m ≤ NIL + 3) {k : Int}
    (hk : m < k) (hk' : k ≤ NIL + 3) {t : Nat} (ht : t < 2) {qty : Int} (hq : 1 ≤ qty)
    (hq' : qty ≤ 2) : (Op.insert k t qty 0).WellFormed secondLap L := by
  obtain ⟨hlen, hall⟩ := h
  have hsum := @Ledger.levelQty_le L 2 (by omega) (fun r hr => (hall r hr).2) secondLap.grid
    (laneOf 0) (secondLap.grid.tickOf t)
  have hfresh : k ∉ L.ids := by
    intro hmem
    obtain ⟨r, hr, rfl⟩ := List.mem_map.mp hmem
    have := (hall r hr).1
    omega
  have hnil : NIL = 4294967295 := rfl
  refine ⟨⟨⟨by omega, by omega⟩, ⟨by omega, by omega⟩, by omega, by omega⟩, by omega, hfresh,
    ⟨t, ht, ?_⟩, by omega, hq, Nat.lt_of_le_of_lt hlen (by decide), by omega⟩
  simp only [secondLap, Int.zero_add, Int.mul_one]

theorem lappedRun_wellFormed : WellFormed secondLap [] (lappedRun (.cancel 1)) := by
  have hbase : WellFormed secondLap [] (bidsAt 0 NIL) :=
    bidsAt_wellFormed secondLap_ok (by decide) (by decide)
  have hmem : (1 : Int) ∈ (Ledger.after [] (bidsAt 0 NIL)).ids := by
    rw [after_bidsAt, Ledger.ids, List.map_map, List.mem_map]
    exact ⟨0, List.mem_range.mpr (by decide), rfl⟩
  have hnil : NIL = 4294967295 := rfl
  have h₀ : Small NIL (Ledger.after [] (bidsAt 0 NIL)) := by
    refine ⟨by rw [after_bidsAt_length]; decide, fun r hr => ?_⟩
    rw [after_bidsAt] at hr
    obtain ⟨i, hi, rfl⟩ := List.mem_map.mp hr
    have := List.mem_range.mp hi
    exact ⟨by simp only; omega, show (1 : Int) - 0 ≤ 2 by decide⟩
  have hlen := after_bidsAt_length 0 NIL
  refine wellFormed_append.mpr ⟨hbase, ?_⟩
  generalize Ledger.after [] (bidsAt 0 NIL) = L at *
  have h₂ : Small (NIL + 2) (L ++ [⟨NIL + 1, 0, 1, 0, 0⟩, ⟨NIL + 2, 1, 2, 0, 0⟩]) := by
    refine ⟨by simp [hlen, hnil], fun r hr => ?_⟩
    obtain hr | hr := List.mem_append.mp hr
    · have := h₀.2 r hr
      omega
    · simp only [List.mem_cons, List.not_mem_nil, or_false] at hr
      obtain rfl | rfl := hr
      · exact ⟨by simp only; omega, by decide⟩
      · exact ⟨by simp only; omega, by decide⟩
  have h₁ : Small (NIL + 1) (L ++ [⟨NIL + 1, 0, 1, 0, 0⟩]) := by
    refine ⟨by simp [hlen, hnil], fun r hr => ?_⟩
    obtain hr | hr := List.mem_append.mp hr
    · have := h₀.2 r hr
      omega
    · rw [List.mem_singleton] at hr
      subst hr
      exact ⟨by simp only; omega, by decide⟩
  have hlast : (⟨NIL + 2, 1, 2, 0, 0⟩ : Resting) ∈ Ledger.apply
      (L ++ [⟨NIL + 1, 0, 1, 0, 0⟩] ++ [⟨NIL + 2, 1, 2, 0, 0⟩]) (.cancel 1) := by
    refine List.mem_filter.mpr ⟨?_, by decide⟩
    simp
  have h₃ : Small (NIL + 2) (Ledger.apply (Ledger.apply
      (L ++ [⟨NIL + 1, 0, 1, 0, 0⟩] ++ [⟨NIL + 2, 1, 2, 0, 0⟩]) (.cancel 1)) (.update (NIL + 2) 1)) := by
    rw [List.append_assoc]
    refine ⟨?_, fun r hr => ?_⟩
    · rw [Ledger.apply, List.length_map]
      exact (List.length_filter_le _ _).trans h₂.1
    · obtain ⟨o, ho, rfl⟩ := List.mem_map.mp hr
      have := h₂.2 o (List.mem_filter.mp ho).1
      simp only [Resting.remaining] at this ⊢
      split
      · simp only [Resting.fillBy]
        omega
      · exact this
  refine ⟨h₀.insert (by omega) (by omega) (by omega) (t := 0) (by decide) (by decide) (by decide),
    h₁.insert (by omega) (by omega) (by omega) (t := 1) (by decide) (by decide) (by decide),
    ?_, ⟨List.mem_map_of_mem hlast, by decide, by decide⟩,
    h₃.insert (by omega) (by omega) (by omega) (t := 1) (by decide) (by decide) (by decide), trivial⟩
  change (1 : Int) ∈ Ledger.ids (L ++ [_] ++ [_])
  rw [Ledger.ids, List.append_assoc, List.map_append]
  exact List.mem_append_left _ hmem

/-- The memory from the last slot number on: level 1 is `l`, and the lower bids
and the asks stay as they are. -/
structure Lapped (g : Flat) (hwm freeHead : Nat) (l : PriceLevel) : Prop where
  grid : g.grid = secondLap.grid
  hwm : g.hwm = hwm
  free : g.freeHead = freeHead
  level : g.lvl .bid 1 = l
  bids : (g.lvl .bid 0).head ≠ NIL
  asks : ∀ t, (g.lvl .ask t).head = NIL
  tails : ∀ x t, (g.lvl x t).tail ≠ NIL → (g.lvl x t).tail < secondLap.cap

theorem Lapped.tickOf_one {g : Flat} {hwm freeHead : Nat} {l : PriceLevel}
    (h : Lapped g hwm freeHead l) : g.grid.tickOf 1 = 1 := by
  rw [h.grid]
  decide

theorem Lapped.insert {g : Flat} {hwm freeHead : Nat} {l : PriceLevel}
    (h : Lapped g hwm freeHead l) (hslot : g.nextSlot = 0) (hl : l.tail = NIL) (k qty : Int) :
    Lapped (g.insert ⟨k, 1, qty, 0, 0⟩) g.alloc.hwm g.alloc.freeHead
        ⟨0, 0, i64 (l.qtyTotal + qty), u32 (l.count + 1)⟩ ∧
      (g.insert ⟨k, 1, qty, 0, 0⟩).ord 0 = ⟨k, 1, qty, 0, NIL, NIL, 0⟩ ∧
      (g.insert ⟨k, 1, qty, 0, 0⟩).ids = g.ids.insert k 0 := by
  have htick := h.tickOf_one
  have hnew : (g.insert ⟨k, 1, qty, 0, 0⟩).lvl .bid 1 =
      ⟨0, 0, i64 (l.qtyTotal + qty), u32 (l.count + 1)⟩ := by
    change (g.alloc.place g.nextSlot ⟨k, 1, qty, 0, 0⟩).lvl .bid 1 = _
    simp [Flat.place, Flat.linkNext, Flat.setLvl, Flat.setOrd, htick, laneOf, hslot, h.level, hl]
  have hold : ∀ x t, ¬ (x = .bid ∧ t = 1) →
      (g.insert ⟨k, 1, qty, 0, 0⟩).lvl x t = g.lvl x t := by
    intro x t hne
    change (g.alloc.place g.nextSlot ⟨k, 1, qty, 0, 0⟩).lvl x t = _
    rw [place_lvl_ne _ _ _ (by rw [alloc_grid, htick]; exact hne), alloc_lvl]
  refine ⟨⟨?_, rfl, rfl, hnew, ?_, fun t => ?_, fun x t ht => ?_⟩, ?_, ?_⟩
  · exact (alloc_grid g).trans h.grid
  · rw [hold _ _ (by simp)]
    exact h.bids
  · rw [hold _ _ (by simp)]
    exact h.asks t
  · by_cases hx : x = .bid ∧ t = 1
    · rw [hx.1, hx.2, hnew]
      exact show 0 < secondLap.cap by decide
    · rw [hold _ _ hx] at ht ⊢
      exact h.tails x t ht
  · change (g.alloc.place g.nextSlot ⟨k, 1, qty, 0, 0⟩).ord 0 = _
    simp [Flat.place, Flat.linkNext, Flat.setLvl, Flat.setOrd, htick, laneOf, hslot, h.level, hl]
  · change g.alloc.ids.insert k g.nextSlot = _
    rw [alloc_ids, hslot]

theorem Lapped.insert_runs {g : Flat} {hwm freeHead : Nat} {l : PriceLevel}
    (h : Lapped g hwm freeHead l) (hslot : g.nextSlot = 0) (hmark : hwm ≠ secondLap.cap)
    (hfree : freeHead ≠ NIL → freeHead < secondLap.cap) (k qty : Int) :
    Runs (Shows secondLap.cap) (Book.apply (.insert k 1 qty 0)) g ()
      (g.insert ⟨k, 1, qty, 0, 0⟩) := by
  refine insert_runs_of (h.grid ▸ secondLap_ok) ?_ ?_ ?_ ?_ h.tails
  · rw [h.grid]
    decide
  · rw [h.free]
    exact hfree
  · rw [h.hwm]
    exact fun _ => hmark
  · rw [hslot]
    decide

theorem Lapped.remove {g : Flat} {hwm freeHead : Nat} {q : Int} {c : Nat}
    (h : Lapped g hwm freeHead ⟨0, 0, q, c⟩) {k : Int} (ho : g.ord 0 = ⟨k, 1, 2, 0, NIL, NIL, 0⟩)
    {mark : Order → Order} (hm : Flat.Books mark) :
    Lapped (g.remove 1 0 mark) hwm 0 ⟨NIL, NIL, i64 (q - i64 (2 - 0)), u32 (c - 1)⟩ ∧
      (g.remove 1 0 mark).ord 0 =
        ⟨0, 1, 2, (mark ⟨k, 1, 2, 0, NIL, NIL, 0⟩).filled, freeHead, NIL, 0⟩ ∧
      (g.remove 1 0 mark).ids = g.ids.remove 1 := by
  have htick := h.tickOf_one
  have hmark : mark ⟨k, 1, 2, 0, NIL, NIL, 0⟩ =
      ⟨k, 1, 2, (mark ⟨k, 1, 2, 0, NIL, NIL, 0⟩).filled, NIL, NIL, 0⟩ := by
    obtain e | e := hm ⟨k, 1, 2, 0, NIL, NIL, 0⟩ <;> rw [e]
  have e : g.remove 1 0 mark =
      (((g.marked 1 0 mark).unlink 0 .bid 1 (i64 (2 - 0))).free 0).repairBest .bid 1 := by
    simp only [Flat.remove, Flat.marked, ho, htick, laneOf, if_true]
  have hslot : (g.marked 1 0 mark).ord 0 = mark ⟨k, 1, 2, 0, NIL, NIL, 0⟩ := by
    rw [marked_ord_self, ho]
  have hlvl : ∀ x t, (g.remove 1 0 mark).lvl x t = if x = .bid ∧ t = 1 then
      ⟨NIL, NIL, i64 (q - i64 (2 - 0)), u32 (c - 1)⟩ else g.lvl x t := by
    intro x t
    rw [e]
    change ((g.marked 1 0 mark).unlink 0 .bid 1 (i64 (2 - 0))).lvl x t = _
    have hl : (g.marked 1 0 mark).lvl = g.lvl := rfl
    rw [unlink_lvl, Flat.next, Flat.prev, hslot, hmark, hl, h.level]
    simp only [if_true]
  refine ⟨⟨?_, ?_, ?_, ?_, ?_, fun t => ?_, fun x t ht => ?_⟩, ?_, ?_⟩
  · rw [e]
    exact h.grid
  · rw [e]
    exact h.hwm
  · rw [e]
    rfl
  · rw [hlvl, if_pos ⟨rfl, rfl⟩]
  · rw [hlvl, if_neg (by simp)]
    exact h.bids
  · rw [hlvl, if_neg (by simp)]
    exact h.asks t
  · rw [hlvl] at ht ⊢
    split at ht
    · exact absurd rfl ht
    · rw [if_neg ‹_›]
      exact h.tails x t ht
  · rw [e]
    have hhead : ((g.marked 1 0 mark).unlink 0 .bid 1 (i64 (2 - 0))).freeHead = freeHead := h.free
    change (((g.marked 1 0 mark).unlink 0 .bid 1 (i64 (2 - 0))).free 0).ord 0 = _
    rw [free_ord, if_pos rfl, hhead, unlink_ord, hslot, hmark]
    simp
  · rw [e]
    rfl

theorem Lapped.update {g : Flat} {hwm freeHead : Nat} {l : PriceLevel}
    (h : Lapped g hwm freeHead l) {o : Order} (ho : g.ord 0 = o) (hside : o.side = 0)
    (hprice : o.price = 1) (n : Int) :
    Lapped (g.fillSlot 0 n) hwm freeHead
      { l with qtyTotal := i64 (l.qtyTotal - min n (i64 (o.qty - o.filled))) } := by
  have htick := h.tickOf_one
  subst ho
  have hlvl : ∀ x t, (g.fillSlot 0 n).lvl x t = if x = .bid ∧ t = 1 then
      { l with qtyTotal := i64 (l.qtyTotal - min n (i64 ((g.ord 0).qty - (g.ord 0).filled))) }
      else g.lvl x t := by
    intro x t
    simp only [Flat.fillSlot, Flat.setLvl, Flat.setOrd, hside, hprice, htick, laneOf, if_true, h.level]
  have htail : l.tail ≠ NIL → l.tail < secondLap.cap := by
    rw [← h.level]
    exact h.tails .bid 1
  refine ⟨h.grid, h.hwm, h.free, ?_, ?_, fun t => ?_, fun x t ht => ?_⟩
  · rw [hlvl, if_pos ⟨rfl, rfl⟩]
  · rw [hlvl, if_neg (by simp)]
    exact h.bids
  · rw [hlvl, if_neg (by simp)]
    exact h.asks t
  · rw [hlvl] at ht ⊢
    split at ht
    · rw [if_pos ‹_›]
      exact htail ht
    · rw [if_neg ‹_›]
      exact h.tails x t ht

/-- The first order of all gets the first slot, and keeps it while others join. -/
theorem first_slot {n : Nat} (hn : 0 < n) :
    ((new secondLap).view.steps (bidsAt 0 n)).ids 1 = some 0 := by
  have hstep : ∀ n, (new secondLap).view.steps (bidsAt 0 (n + 1)) =
      ((new secondLap).view.steps (bidsAt 0 n)).insert ⟨n + 1, 0, 1, 0, 0⟩ := by
    intro n
    rw [bidsAt_succ, Flat.steps, List.foldl_append]
    rfl
  have hids : ∀ (g : Flat) (r : Resting), (g.insert r).ids = g.ids.insert r.orderId g.nextSlot := by
    intro g r
    change g.alloc.ids.insert _ _ = _
    rw [alloc_ids]
  induction n, hn using Nat.le_induction with
  | base =>
    rw [hstep, hids, bidsAt_zero]
    rfl
  | succ n hn ih =>
    rw [hstep, hids]
    have hne : (1 : Int) ≠ n + 1 := by omega
    exact (if_neg hne).trans ih

/-- The memory once every slot number is given out. -/
theorem lap_done : ∃ g b, Lapped g 0 NIL PriceLevel.EMPTY ∧ g.ids 1 = some 0 ∧
    run (bidsAt 0 NIL ++ [.insert (NIL + 1) 0 1 0]) (new secondLap) = .ok () b ∧
    b.Shows secondLap.cap g := by
  have hwf : WellFormed secondLap [] (bidsAt 0 NIL) :=
    bidsAt_wellFormed secondLap_ok (by decide) (by decide)
  obtain ⟨f, b, ⟨q, fl, hrep, -, -⟩, hgrid, hhwm, hfree, e, hb, hlast⟩ :=
    last_slot secondLap_ok (by decide) hwf (bidsAt_fits (Nat.le_refl NIL)) (after_bidsAt_length 0 NIL)
  obtain ⟨b', e', hb'⟩ := hlast (NIL + 1) 0 1 0 (by decide)
  set r : Resting := ⟨NIL + 1, 0, 1, 0, 0⟩
  have htick : f.grid.tickOf 0 = 0 := by
    rw [hgrid]
    decide
  have hslot : f.nextSlot = NIL := by rw [Flat.nextSlot, if_neg (not_not.mpr hfree), hhwm]
  have hempty : ∀ x t, ¬ (x = .bid ∧ t = 0) → q x t = [] := by
    intro x t hne
    by_contra hq
    have hocc : (f.lvl x t).head ≠ NIL := fun h0 => hq ((hrep.queues x t).fifo.head_eq_nil_iff.mp h0)
    refine (hrep.queues.occupied_iff x t).mp hocc (List.filter_eq_nil_iff.mpr fun o ho => ?_)
    rw [after_bidsAt] at ho
    obtain ⟨i, -, rfl⟩ := List.mem_map.mp ho
    simp only [Resting.At, htick, decide_eq_true_eq]
    rintro ⟨rfl, rfl⟩
    exact hne ⟨rfl, rfl⟩
  have hfirst : (f.lvl .bid 0).head ≠ NIL := by
    refine (hrep.queues.occupied_iff .bid 0).mpr (List.ne_nil_of_mem (a := ⟨0 + 1, 0, 1, 0, 0⟩) ?_)
    rw [Ledger.atLevel, after_bidsAt]
    refine List.mem_filter.mpr ⟨List.mem_map.mpr ⟨0, List.mem_range.mpr (by decide), rfl⟩, ?_⟩
    exact decide_eq_true ⟨rfl, htick⟩
  have hold : ∀ x t, ¬ (x = .bid ∧ t = 0) → (f.insert r).lvl x t = f.lvl x t := by
    intro x t hne
    change (f.alloc.place f.nextSlot r).lvl x t = _
    rw [place_lvl_ne _ _ _ (by rw [alloc_grid]; exact fun h => hne (htick ▸ h)), alloc_lvl]
  have hjoin : (f.lvl (laneOf r.side) (f.grid.tickOf r.price)).tail ≠ NIL := by
    change (f.lvl .bid (f.grid.tickOf 0)).tail ≠ NIL
    rw [htick]
    have hq := (hrep.queues .bid 0).fifo
    exact fun h => hfirst (hq.head_eq_nil_iff.mpr (hq.tail_eq_nil_iff.mp h))
  refine ⟨f.insert r, b', ⟨(alloc_grid f).trans hgrid, insert_wraps hhwm hfree r, ?_, ?_, ?_, fun t => ?_,
    fun x t ht => ?_⟩, ?_, ?_, hb'⟩
  · change f.alloc.freeHead = NIL
    rw [Flat.alloc, if_neg (not_not.mpr hfree)]
    exact hfree
  · rw [hold _ _ (by decide)]
    exact hrep.level_eq_empty (hempty _ _ (by decide))
  · rw [insert_head hjoin]
    exact hfirst
  · rw [insert_head hjoin]
    exact (hrep.queues .ask t).fifo.head_eq_nil_iff.mpr (hempty _ _ (by simp))
  · by_cases hx : x = .bid ∧ t = 0
    · refine absurd ?_ ht
      obtain ⟨rfl, rfl⟩ := hx
      change ((f.alloc.place f.nextSlot r).lvl .bid 0).tail = NIL
      simp [Flat.place, Flat.linkNext, Flat.setLvl, Flat.setOrd, htick, laneOf, hslot, r]
    · rw [hold _ _ hx] at ht ⊢
      exact Nat.lt_trans (hrep.tail_lt ht) (by rw [hhwm]; decide)
  · change (f.alloc.ids.insert (NIL + 1) f.nextSlot) 1 = some 0
    have hids : f.ids = ((new secondLap).view.steps (bidsAt 0 NIL)).ids := by
      obtain ⟨hrun, -, -⟩ := run_holds secondLap_ok rfl (new_holds secondLap_ok) hwf
        (bidsAt_fits (Nat.le_refl NIL))
      obtain ⟨b₁, e₁, h₁⟩ := hrun _ (new_shows secondLap)
      rw [e] at e₁
      cases e₁
      rw [← hb.view, h₁.view]
    rw [alloc_ids, hids]
    have hne : (1 : Int) ≠ NIL + 1 := by decide
    exact (if_neg hne).trans (first_slot (by decide))
  · exact runAll_append_eq_ok.mpr ⟨b, e, runAll_cons_eq_ok.mpr ⟨b', e', rfl⟩⟩

/-- The rest of the run: what order 1 is booked as decides how much the update takes. -/
theorem lap_ends {op : Op} {mark : Order → Order} (hm : Flat.Books mark)
    (hrun : ∀ f : Flat, f.ids 1 = some 0 → Removable secondLap.cap f 0 →
      Runs (Shows secondLap.cap) (Book.apply op) f () (f.remove 1 0 mark)) :
    ∃ g b, run (lappedRun op) (new secondLap) = .ok () b ∧ b.Shows secondLap.cap g ∧
      Lapped g 1 NIL ⟨0, 0, i64 (i64 (i64 (i64 (0 + 2) - i64 (2 - 0)) -
        min 1 (i64 (2 - (mark ⟨NIL + 2, 1, 2, 0, NIL, NIL, 0⟩).filled))) + 1), 1⟩ := by
  obtain ⟨g₀, b₀, h₀, hid, e₀, hb₀⟩ := lap_done
  have hslot₀ : g₀.nextSlot = 0 := by rw [Flat.nextSlot, h₀.free, if_neg (by simp), h₀.hwm]
  obtain ⟨b₁, e₁, hb₁⟩ := h₀.insert_runs hslot₀ (by decide) (fun h => absurd rfl h) (NIL + 2) 2 b₀ hb₀
  obtain ⟨h₁, hord₁, hids₁⟩ := h₀.insert hslot₀ rfl (NIL + 2) 2
  have hhwm₁ : g₀.alloc.hwm = 1 := by
    rw [Flat.alloc, h₀.free, if_neg (by simp), h₀.hwm]
    rfl
  have hfree₁ : g₀.alloc.freeHead = NIL := by
    rw [Flat.alloc, h₀.free, if_neg (by simp)]
  rw [hhwm₁, hfree₁] at h₁
  generalize g₀.insert ⟨NIL + 2, 1, 2, 0, 0⟩ = g₁ at *
  have hid₁ : g₁.ids 1 = some 0 ∧ g₁.ids (NIL + 2) = some 0 := by
    rw [hids₁]
    exact ⟨(if_neg (by decide)).trans hid, if_pos rfl⟩
  have hrem : Removable secondLap.cap g₁ 0 := by
    refine ⟨h₁.grid ▸ secondLap_ok, by decide, ?_, ?_, ?_⟩
    · rw [hord₁, h₁.grid]
      decide
    · rw [Flat.prev, hord₁]
      exact fun h => absurd rfl h
    · rw [Flat.next, hord₁]
      exact fun h => absurd rfl h
  obtain ⟨b₂, e₂, hb₂⟩ := hrun g₁ hid₁.1 hrem b₁ hb₁
  obtain ⟨h₂, hord₂, hids₂⟩ := h₁.remove hord₁ hm
  generalize g₁.remove 1 0 mark = g₂ at *
  have hid₂ : g₂.ids (NIL + 2) = some 0 := by
    rw [hids₂]
    exact (if_neg (by decide)).trans hid₁.2
  have htick₂ : g₂.grid.tickOf (g₂.ord 0).price < g₂.grid.nLevels := by
    rw [hord₂, h₂.grid]
    exact show secondLap.grid.tickOf 1 < 2 by decide
  obtain ⟨b₃, e₃, hb₃⟩ := @update_runs_of secondLap.cap g₂ (h₂.grid ▸ secondLap_ok) _ 0 hid₂
    (by decide) htick₂ 1 b₂ hb₂
  have h₃ := h₂.update hord₂ rfl rfl 1
  have hnext₃ : (g₂.fillSlot 0 1).next 0 = NIL := by
    have h : (g₂.fillSlot 0 1).next 0 = g₂.next 0 := by simp [Flat.next, Flat.fillSlot, Flat.setLvl, Flat.setOrd]
    rw [h, Flat.next, hord₂]
  generalize g₂.fillSlot 0 1 = g₃ at *
  have hnil : (0 : Nat) ≠ NIL := by decide
  have hslot₃ : g₃.nextSlot = 0 := by rw [Flat.nextSlot, h₃.free, if_pos hnil]
  obtain ⟨b₄, e₄, hb₄⟩ := h₃.insert_runs hslot₃ (by decide) (fun _ => by decide) (NIL + 3) 1 b₃ hb₃
  obtain ⟨h₄, -, -⟩ := h₃.insert hslot₃ rfl (NIL + 3) 1
  have hhwm₄ : g₃.alloc.hwm = 1 := by
    rw [Flat.alloc, h₃.free, if_pos hnil]
    exact h₃.hwm
  have hfree₄ : g₃.alloc.freeHead = NIL := by
    rw [Flat.alloc, h₃.free, if_pos hnil]
    exact hnext₃
  rw [hhwm₄, hfree₄] at h₄
  refine ⟨_, b₄, ?_, hb₄, h₄⟩
  have hsplit : lappedRun op = (bidsAt 0 NIL ++ [.insert (NIL + 1) 0 1 0]) ++
      [.insert (NIL + 2) 1 2 0, op, .update (NIL + 2) 1, .insert (NIL + 3) 1 1 0] := by
    simp [lappedRun, lastOps]
  rw [hsplit]
  exact runAll_append_eq_ok.mpr ⟨b₀, e₀, runAll_cons_eq_ok.mpr ⟨b₁, e₁, runAll_cons_eq_ok.mpr
    ⟨b₂, e₂, runAll_cons_eq_ok.mpr ⟨b₃, e₃, runAll_cons_eq_ok.mpr ⟨b₄, e₄, rfl⟩⟩⟩⟩⟩

theorem bytes_field (pre rest : List Field) (w v : Nat) :
    (bytes (pre ++ (w + 1, v) :: rest))[width pre]? = some (UInt8.ofNat v) := by
  rw [bytes_append, List.getElem?_append_right (Nat.le_of_eq (bytes_length pre)), bytes_length,
    Nat.sub_self, bytes_cons]
  rfl

/-- What the image of such a book has as the quantity of level 1. -/
theorem Lapped.encode {g : Flat} {l : PriceLevel} (h : Lapped g 1 NIL l) (hl : l.head ≠ NIL)
    {b : Book} (hb : b.Shows secondLap.cap g) (hn : b.Narrow) (crc32c : List UInt8 → UInt32)
    {buf : List UInt8} (hbuf : 155 ≤ buf.length) :
    b.source.room ≤ buf.length ∧ b.source.image.levels.length = 2 ∧
      ∃ data, b.encode crc32c buf = .ok (data, 155) ∧
        data[82]? = some (UInt8.ofNat (u64 l.qtyTotal)) := by
  have hgrid : g.grid.nLevels = 2 := by
    rw [h.grid]
    rfl
  have hrecs : g.levelRecs = [(0, 0, g.lvl .bid 0), (0, 1, l)] := by
    have hbid : laneOf 0 = .bid := rfl
    have hask : laneOf 1 = .ask := rfl
    simp [Flat.levelRecs, Flat.laneRecs, hgrid, List.range_succ, hbid, hask, h.bids, h.asks,
      h.level, hl]
  have hlen : b.source.levelRecs.length = 2 := by
    rw [hb.levelRecs_eq hn, hrecs]
    rfl
  have hmark : b.source.scalars.hwm = 1 := (hwm_source hb).trans h.hwm
  have hroom : b.source.room = 155 := by
    rw [Source.room, hlen, hmark]
    rfl
  have himage := hb.keptImage_eq hn (by rw [h.hwm]; decide)
  have hkept : b.source.image.levels = [(0, 0, g.lvl .bid 0), (0, 1, l)] := by
    rw [himage, Flat.keptImage, hrecs]
    rfl
  have horders : b.source.image.orders.length = 1 := by
    rw [himage, (Flat.keptImage_blot rfl _ _).2, h.hwm]
    rfl
  have hread : b.source.Readable := by
    refine ⟨fun side _ t ht => ?_, fun side _ t _ => rfl, fun s hs => ?_, by rw [hroom]; decide⟩
    · exact Option.isSome_iff_exists.mpr ⟨_, Array.getElem?_eq_getElem ht⟩
    · refine Option.isSome_iff_exists.mpr ⟨_, Array.getElem?_eq_getElem (?_ : s < b.pool.size)⟩
      rw [hb.pool]
      rw [hmark] at hs
      exact Nat.lt_trans hs (by decide)
  have hgroups : Encoder.NoEmptyGroup b.source := by
    rw [Encoder.NoEmptyGroup, hlen, hmark]
    exact ⟨fun _ => by decide, fun _ => by decide⟩
  obtain ⟨data, henc, hdata⟩ := Encoder.encode_ok crc32c hread hgroups (hroom.symm ▸ hbuf)
  have hwidth : width b.source.image.fields = 151 := by
    rw [Image.width_fields, hkept, horders]
    rfl
  rw [hwidth] at henc hdata
  refine ⟨hroom.symm ▸ hbuf, by rw [hkept]; rfl, data, henc, ?_⟩
  have ht : (data.take (151 + 4))[82]? = data[82]? := List.getElem?_take_of_lt (by decide)
  rw [← ht, hdata, Encoder.sealed, List.getElem?_append_left (by rw [bytes_length, hwidth]; decide)]
  -- 82 bytes stand before the quantity of the second level
  obtain ⟨pre, rest, hpre, hfields⟩ : ∃ pre rest, width pre = 82 ∧
      b.source.image.fields = pre ++ (8, u64 l.qtyTotal) :: rest := by
    refine ⟨headerFields ++ b.source.image.scalars.fields ++
      groupFields LEVELS_BLOCK b.source.image.levelCount ++ levelFields (0, 0, g.lvl .bid 0) ++
      [(1, sideEnum 0), (4, 1)], [(4, l.count), (4, l.head), (4, l.tail)] ++
      groupFields ORDERS_BLOCK b.source.image.orderCount ++
      (b.source.image.orders.map orderFields).flatten, ?_, ?_⟩
    · simp only [width_append, levelFields_width]
      rfl
    · rw [Image.fields, Image.prefixFields, hkept]
      simp [levelFields]
  rw [hfields, ← hpre]
  exact bytes_field pre rest 7 _

/-- With more orders than slot numbers a removed order can still be updated, and
then the two kinds of removal lead to different quantities of a level. -/
theorem swap_shows : secondLap.grid.Ok ∧ WellFormed secondLap [] (lappedRun (.cancel 1)) ∧
    List.Forall₂ Op.Swap (lappedRun (.cancel 1)) (lappedRun (.fill 1)) ∧
    ∃ b b', run (lappedRun (.cancel 1)) (new secondLap) = .ok () b ∧
      run (lappedRun (.fill 1)) (new secondLap) = .ok () b' ∧
      ∀ crc32c, ∃ buf, b.source.room ≤ buf.length ∧ ¬ b.ImagesAgree crc32c b' buf := by
  obtain ⟨g, b, e, hb, h⟩ := @lap_ends (.cancel 1) _ books_withdrawn fun f hid hrem =>
    cancel_runs_of hid hrem
  obtain ⟨g', b', e', hb', h'⟩ := @lap_ends (.fill 1) _ books_completed fun f hid hrem =>
    fill_runs_of hid hrem
  have hswap : List.Forall₂ Op.Swap (lappedRun (.cancel 1)) (lappedRun (.fill 1)) := by
    have hsame : ∀ ops : List Op, List.Forall₂ Op.Swap ops ops := fun ops =>
      List.forall₂_same.mpr fun op _ => .same op
    exact List.rel_append (hsame _) (.cons (.same _) (.cons (.same _) (.cons (.fillFor 1) (hsame _))))
  refine ⟨secondLap_ok, lappedRun_wellFormed, hswap, b, b', e, e', fun crc32c => ?_⟩
  have hlen : 155 ≤ (List.replicate 155 (0 : UInt8)).length := by simp
  obtain ⟨hroom, hlevels, data, henc, hbyte⟩ :=
    h.encode (by decide) hb (CowBook.run_narrow e) crc32c hlen
  obtain ⟨-, -, data', henc', hbyte'⟩ :=
    h'.encode (by decide) hb' (CowBook.run_narrow e') crc32c hlen
  refine ⟨_, hroom, fun hagree => ?_⟩
  have hne : data[82]? ≠ data'[82]? := by
    rw [hbyte, hbyte']
    decide
  obtain ⟨-, hdiffer⟩ := hagree.differ _ _ _ _ henc henc'
  obtain ⟨k, -, -, -, -, hlo, -⟩ := hdiffer 82 (by decide) hne
  omega

end Book

end HiPerf
