import HiPerf.Book.Run
import HiPerf.Snapshot.Decode

/-!
A book that holds a ledger, encoded and restored. What the image kept of the
levels and slots is in the restored book; the rest of that book is fresh.
-/

namespace HiPerf

open Machine Exec Bytes Fifo

theorem kept_length {β : Type} {count : Nat} {bs : List β} (hc : bs ≠ [] → 0 < count)
    (h : count ≤ bs.length) : (kept count bs).length = count := by
  rcases List.eq_nil_or_concat bs with rfl | ⟨bs, b, rfl⟩
  · simp only [List.length_nil, Nat.le_zero] at h
    subst h
    rfl
  · rw [List.concat_eq_append] at h hc ⊢
    simp only [List.length_append, List.length_cons, List.length_nil] at h
    by_cases hlt : count ≤ bs.length
    · have hpos := hc (by simp)
      rw [kept_of_gt hpos b hlt]
      simp only [List.length_append, List.length_take, List.length_cons, List.length_nil]
      omega
    · rw [kept_of_le (by simp; omega)]
      simp only [List.length_append, List.length_cons, List.length_nil]
      omega

theorem mem_of_mem_kept {β : Type} {count : Nat} {bs : List β} {b : β} (h : b ∈ kept count bs) :
    b ∈ bs := by
  have hpush : ∀ (bs blocks : List β), b ∈ bs.foldl (push count) blocks → b ∈ blocks ∨ b ∈ bs := by
    intro bs
    induction bs with
    | nil => exact fun blocks h => .inl h
    | cons a bs ih =>
      intro blocks h
      obtain h | h := ih _ h
      · unfold push at h
        split at h
        · rw [List.mem_append, List.mem_singleton] at h
          obtain h | rfl := h
          · exact .inl h
          · exact .inr (by simp)
        · rw [List.mem_append, List.mem_singleton] at h
          obtain h | rfl := h
          · exact .inl ((List.dropLast_sublist _).subset h)
          · exact .inr (by simp)
      · exact .inr (by simp [h])
  obtain h | h := hpush bs [] h
  · cases h
  · exact h

theorem laneRec_eq {v : Source} {side t : Nat} {r : LevelRec}
    (h : ((v.level side t).bind fun l => if l.head = NIL then none else some (side, t, l)) = some r) :
    r.1 = side ∧ r.2.1 = t ∧ v.level side t = some r.2.2 ∧ r.2.2.head ≠ NIL := by
  obtain ⟨l, hl, hr⟩ := Option.bind_eq_some_iff.mp h
  split at hr
  · cases hr
  · cases hr
    exact ⟨rfl, rfl, hl, ‹_›⟩

namespace Book

variable {cap : Nat} {b : Book} {f : Flat} {L : Ledger} {q : Lane → Nat → List Nat}

theorem source_level (hb : b.Shows cap f) {side t : Nat} {l : PriceLevel}
    (h : b.source.level side t = some l) : l = f.lvl (laneOf side) t := by
  have e := lane_view b side t
  rw [hb.view] at e
  rw [← e, show (b.lane side)[t]? = some l from h]
  rfl

theorem source_order (hb : b.Shows cap f) {s : Nat} {o : Order} (h : b.source.order s = some o) :
    s < cap ∧ o = f.ord s := by
  rw [← hb.view, ← hb.pool]
  refine ⟨(Array.getElem?_eq_some_iff.mp h).1, ?_⟩
  have : b.pool[s]? = some o := h
  simp only [view, this, Option.getD_some]

/-- A level record of the book: side, level, and what the book has there. -/
theorem mem_levelRecs {r : LevelRec} (h : r ∈ b.source.levelRecs) :
    r.1 ≤ 1 ∧ b.source.level r.1 r.2.1 = some r.2.2 ∧ r.2.2.head ≠ NIL := by
  have hlane : ∀ side ≤ 1, r ∈ b.source.laneRecs side 0 (b.source.width side) →
      r.1 ≤ 1 ∧ b.source.level r.1 r.2.1 = some r.2.2 ∧ r.2.2.head ≠ NIL := by
    intro side hs hr
    obtain ⟨t, -, ht⟩ := List.mem_filterMap.mp hr
    obtain ⟨rfl, rfl, hl, hn⟩ := laneRec_eq ht
    exact ⟨hs, hl, hn⟩
  obtain h | h := List.mem_append.mp h
  · exact hlane 0 (by omega) h
  · exact hlane 1 (by omega) h

theorem levelRecs_mem {side t : Nat} {l : PriceLevel} (hs : side ≤ 1)
    (h : b.source.level side t = some l) (hn : l.head ≠ NIL) :
    (side, t, l) ∈ b.source.levelRecs := by
  have hlt : t < b.source.width side := (Array.getElem?_eq_some_iff.mp h).1
  have hr : (side, t, l) ∈ b.source.laneRecs side 0 (b.source.width side) := by
    refine List.mem_filterMap.mpr ⟨t, by simpa using hlt, ?_⟩
    rw [h, Option.bind_some, if_neg hn]
  obtain rfl | rfl : side = 0 ∨ side = 1 := by omega
  · exact List.mem_append_left _ hr
  · exact List.mem_append_right _ hr

theorem levelRecs_nodup (b : Book) : b.source.levelRecs.Nodup := by
  have hlane : ∀ side, (b.source.laneRecs side 0 (b.source.width side)).Nodup := by
    intro side
    refine List.Nodup.filterMap ?_ List.nodup_range'
    exact fun t u r hr hr' => (laneRec_eq hr).2.1.symm.trans (laneRec_eq hr').2.1
  refine List.nodup_append.mpr ⟨hlane 0, hlane 1, ?_⟩
  rintro r h₀ r' h₁ rfl
  obtain ⟨_, -, ht⟩ := List.mem_filterMap.mp h₀
  obtain ⟨_, -, hu⟩ := List.mem_filterMap.mp h₁
  exact absurd ((laneRec_eq ht).1.symm.trans (laneRec_eq hu).1) (by decide)

/-- An occupied level has a head of its own, so there are no more occupied
levels than queued slots. -/
theorem levelRecs_length_le_of (hb : b.Shows cap f) (h : Rep f L q) {slots : List Nat}
    (hslots : ∀ s, Queued q s → s ∈ slots) : b.source.levelRecs.length ≤ slots.length := by
  have hhead : ∀ r ∈ b.source.levelRecs, r.2.2.head ∈ q (laneOf r.1) r.2.1 := by
    intro r hr
    obtain ⟨-, hl, hn⟩ := mem_levelRecs hr
    have e := source_level hb hl
    have hf := (h.queues (laneOf r.1) r.2.1).fifo
    rw [← e] at hf
    cases hq : q (laneOf r.1) r.2.1 with
    | nil => exact absurd (hf.head_eq_nil_iff.mpr hq) hn
    | cons s l =>
      have := hf.head_eq
      rw [hq] at this
      rw [this]
      simp
  have hnodup : (b.source.levelRecs.map fun r => r.2.2.head).Nodup := by
    refine (levelRecs_nodup b).map_on fun r hr r' hr' e => ?_
    obtain ⟨hs, hl, -⟩ := mem_levelRecs hr
    obtain ⟨hs', hl', -⟩ := mem_levelRecs hr'
    have h₁ := hhead r hr
    have h₂ := hhead r' hr'
    rw [← e] at h₂
    obtain ⟨e₁, e₂⟩ := h.queues.unique h₁ h₂
    obtain ⟨side, t, l⟩ := r
    obtain ⟨side', t', l'⟩ := r'
    have hside : side = side' := by
      simp only at hs hs' e₁
      obtain rfl | rfl : side = 0 ∨ side = 1 := by omega
      · obtain rfl | rfl : side' = 0 ∨ side' = 1 := by omega
        · rfl
        · cases e₁
      · obtain rfl | rfl : side' = 0 ∨ side' = 1 := by omega
        · cases e₁
        · rfl
    simp only at e₂ hl hl'
    subst hside e₂
    rw [hl] at hl'
    cases hl'
    rfl
  have hsub : (b.source.levelRecs.map fun r => r.2.2.head) ⊆ slots := by
    intro s hs
    obtain ⟨r, hr, rfl⟩ := List.mem_map.mp hs
    exact hslots _ ⟨_, _, hhead r hr⟩
  have := (hnodup.subperm hsub).length_le
  simpa using this

theorem levelRecs_length_le (hb : b.Shows cap f) (h : Rep f L q) :
    b.source.levelRecs.length ≤ f.hwm := by
  have hle := levelRecs_length_le_of hb h fun s hs => List.mem_range.mpr (h.queued_lt hs)
  rwa [List.length_range] at hle

theorem level_plain (h : Rep f L q) (x : Lane) (t : Nat) : (f.lvl x t).Plain := by
  have hl := h.queues x t
  have hnil : ∀ s, s ∈ q x t → s ≤ NIL := fun s hs =>
    Nat.le_of_lt (Nat.lt_of_lt_of_le (hl.below s hs) h.hwm_le)
  have hcount : (q x t).length ≤ NIL := by
    have hsub : q x t ⊆ List.range f.hwm := fun s hs => List.mem_range.mpr (hl.below s hs)
    have := ((hl.nodup h.valid.nodup).subperm hsub).length_le
    rw [List.length_range] at this
    exact this.trans h.hwm_le
  refine ⟨?_, ?_, ?_, ?_⟩
  · have hh := hl.fifo.head_eq
    cases hq : q x t with
    | nil => rw [hq] at hh; exact Nat.le_of_eq hh
    | cons s l => rw [hq] at hh; rw [hh]; exact hnil s (by simp [hq])
  · by_cases ht : (f.lvl x t).tail = NIL
    · exact Nat.le_of_eq ht
    · exact hnil _ (hl.fifo.tail_mem ht)
  · rw [hl.qty]
    have := Ledger.levelQty_nonneg h.valid x t
    exact ⟨by omega, h.valid.qty_fits x t⟩
  · rw [hl.count]
    exact Nat.lt_of_le_of_lt hcount (by decide)

theorem scalars_plain (hb : b.Shows cap f) (h : Rep f L q) {fl : List Nat} (hfl : FreeList f L fl) :
    b.source.scalars.Plain := by
  obtain ⟨hbid, hask⟩ := h.bests_i32
  obtain ⟨rfl, hpool, -, -⟩ := hb
  have hhwm : b.hwm ≤ NIL := h.hwm_le
  have hlevels : b.nLevels ≤ 2147483647 := h.grid_ok.levels_le
  refine ⟨h.grid_ok.priceMin_i64, h.grid_ok.tick_i64, Nat.lt_of_le_of_lt hlevels (by decide),
    u32_lt b.pool.size, Nat.lt_of_le_of_lt hhwm (by decide), hbid, hask, ?_⟩
  exact hfl.head_le h.hwm_le

theorem image_plain (hb : b.Shows cap f) (h : Rep f L q) {fl : List Nat} (hfl : FreeList f L fl)
    (hg : Encoder.NoEmptyGroup b.source) : b.source.image.Plain := by
  have hu16 : ∀ n, u16 n ≤ n := fun n => Nat.mod_le _ _
  have horders : (b.source.orderRecs 0 b.source.scalars.hwm).length = b.source.scalars.hwm := by
    simp [Source.orderRecs]
  have hne : b.source.orderRecs 0 b.source.scalars.hwm ≠ [] → b.source.scalars.hwm ≠ 0 := by
    intro hne e
    exact hne (List.eq_nil_of_length_eq_zero (horders.trans e))
  refine ⟨scalars_plain hb h hfl, kept_length (fun hn => Nat.pos_of_ne_zero (hg.1 hn)) (hu16 _),
    u16_lt _, fun r hr => ?_, kept_length (fun hn => Nat.pos_of_ne_zero (hg.2 (hne hn))) ?_, u16_lt _,
    fun r hr => ?_⟩
  · obtain ⟨hs, hl, hn⟩ := mem_levelRecs (mem_of_mem_kept hr)
    have e := source_level hb hl
    have ht := h.occupied_lt (e ▸ hn)
    have := h.grid_ok.levels_le
    exact ⟨hs, by omega, e ▸ level_plain h _ _⟩
  · rw [horders]; exact hu16 _
  · obtain ⟨s, hs, rfl⟩ := List.mem_map.mp (mem_of_mem_kept hr)
    have hlt : s < b.source.scalars.hwm := by simpa using hs
    replace hlt : s < f.hwm := by rw [← hb.view]; exact hlt
    have := h.hwm_le
    refine ⟨Nat.lt_of_lt_of_le hlt (this.trans (by decide)), ?_⟩
    have e : (b.source.order s).getD Order.zero = f.ord s := by rw [← hb.view]; rfl
    rw [e]
    exact h.plain s

theorem source_readable (hb : b.Shows cap f) (h : Rep f L q) (hcap : f.hwm ≤ cap) :
    b.source.Readable := by
  have hlen := levelRecs_length_le hb h
  have hhwm := h.hwm_le
  have e : b.source.scalars.hwm = f.hwm := by rw [← hb.view]; rfl
  refine ⟨fun side _ t ht => ?_, fun side _ t _ => rfl, fun s hs => ?_, ?_⟩
  · exact Option.isSome_iff_exists.mpr ⟨_, Array.getElem?_eq_getElem ht⟩
  · refine Option.isSome_iff_exists.mpr ⟨_, Array.getElem?_eq_getElem (?_ : s < b.pool.size)⟩
    rw [hb.pool]
    omega
  · simp only [Source.room, e, LEVELS_BLOCK, ORDERS_BLOCK, USIZE_MAX, NIL] at hhwm ⊢
    omega

/-- `x` is `z` with the levels at `ls` and the slots `ss` taken from `b`. -/
structure Patched (b z x : Book) (ls : List (Nat × Nat)) (ss : List Nat) : Prop where
  priceMin : x.priceMin = z.priceMin
  tick : x.tick = z.tick
  nLevels : x.nLevels = z.nLevels
  hwm : x.hwm = z.hwm
  bestBid : x.bestBid = z.bestBid
  bestAsk : x.bestAsk = z.bestAsk
  freeHead : x.freeHead = z.freeHead
  lanes : ∀ side ≤ 1, (x.lane side).size = (z.lane side).size
  pool_size : x.pool.size = z.pool.size
  level : ∀ side ≤ 1, ∀ t, (x.lane side)[t]? =
    if (side, t) ∈ ls then (b.lane side)[t]? else (z.lane side)[t]?
  pool : ∀ s, x.pool[s]? = if s ∈ ss then b.pool[s]? else z.pool[s]?
  ids : ∀ k, x.idmap k =
    if k ≠ 0 ∧ ∃ s ∈ ss, (b.pool[s]?.map Order.orderId) = some k then b.idmap k else z.idmap k

theorem Patched.refl (b z : Book) : Patched b z z [] [] := by
  refine ⟨rfl, rfl, rfl, rfl, rfl, rfl, rfl, fun _ _ => rfl, rfl, fun _ _ _ => ?_, fun _ => ?_,
    fun _ => ?_⟩
  all_goals simp

open Decoder in
theorem Patched.putLevel {z x : Book} {ls : List (Nat × Nat)} {ss : List Nat}
    (h : Patched b z x ls ss) {side t : Nat} {l : PriceLevel} (hs : side ≤ 1)
    (ht : t < (z.lane side).size) (hl : (b.lane side)[t]? = some l) :
    ∃ x', lift (sink.putLevel side t l) x = .ok () x' ∧ Patched b z x' (ls ++ [(side, t)]) ss := by
  have hlt : t < (x.lane side).size := by
    rw [h.lanes side hs]
    exact ht
  have hset : ∀ a : Array PriceLevel, a.size = (x.lane side).size → ∀ u,
      (a.setIfInBounds t l)[u]? = if u = t then some l else a[u]? := by
    intro a ha u
    rw [Array.getElem?_setIfInBounds]
    by_cases e : u = t
    · rw [if_pos e, if_pos e.symm, if_pos (ha ▸ hlt)]
    · rw [if_neg e, if_neg (Ne.symm e)]
  refine ⟨if side = 0 then { x with bids := x.bids.setIfInBounds t l }
    else { x with asks := x.asks.setIfInBounds t l }, ?_, ?_⟩
  · simp only [lift, sink, setLevel, hlt, if_true]
  · obtain rfl | rfl : side = 0 ∨ side = 1 := by omega
    · refine { h with lanes := fun side' hs' => ?_, level := fun side' hs' u => ?_ }
      · have := h.lanes side' hs'
        obtain rfl | rfl : side' = 0 ∨ side' = 1 := by omega
        · simpa [lane] using this
        · exact this
      · have := h.level side' hs' u
        obtain rfl | rfl : side' = 0 ∨ side' = 1 := by omega
        · have e := hset x.bids rfl u
          simp only [lane, if_true] at e this hl ⊢
          rw [e, this]
          by_cases hu : u = t
          · subst hu; simp [hl]
          · simp [hu]
        · simpa [lane] using this
    · refine { h with lanes := fun side' hs' => ?_, level := fun side' hs' u => ?_ }
      · have := h.lanes side' hs'
        obtain rfl | rfl : side' = 0 ∨ side' = 1 := by omega
        · exact this
        · simpa [lane] using this
      · have := h.level side' hs' u
        obtain rfl | rfl : side' = 0 ∨ side' = 1 := by omega
        · simpa [lane] using this
        · have e := hset x.asks rfl u
          simp only [lane, if_neg Nat.one_ne_zero] at e this hl ⊢
          rw [e, this]
          by_cases hu : u = t
          · subst hu; simp [hl]
          · simp [hu]

open Decoder in
theorem Patched.putOrder {z x : Book} {ls : List (Nat × Nat)} {ss : List Nat}
    (h : Patched b z x ls ss) {s : Nat} {o : Order} (hs : s < z.pool.size)
    (ho : b.pool[s]? = some o) (hid : o.orderId ≠ 0 → b.idmap o.orderId = some s) :
    ∃ x', lift (sink.putOrder s o) x = .ok () x' ∧ Patched b z x' ls (ss ++ [s]) := by
  have hlt : s < x.pool.size := by
    rw [h.pool_size]
    exact hs
  have hpool : ∀ u, (x.pool.setIfInBounds s o)[u]? =
      if u ∈ ss ++ [s] then b.pool[u]? else z.pool[u]? := by
    intro u
    rw [Array.getElem?_setIfInBounds, h.pool u]
    by_cases e : s = u
    · subst e; simp [hlt, ho]
    · simp [e, Ne.symm e]
  have hset : setOrder s o x = .ok () { x with pool := x.pool.setIfInBounds s o } := by
    simp only [setOrder, hlt, if_true]
  by_cases h0 : o.orderId = 0
  · refine ⟨{ x with pool := x.pool.setIfInBounds s o }, ?_, { h with
      pool_size := by simpa using h.pool_size
      pool := hpool
      ids := fun k => ?_ }⟩
    · have e : sink.putOrder s o x = .ok () { x with pool := x.pool.setIfInBounds s o } := by
        simp only [sink, bind_ok hset, ite_run]
        rw [if_neg (not_not.mpr h0)]
        rfl
      simp only [lift, e]
    · rw [show x.idmap k = _ from h.ids k]
      refine if_congr (and_congr_right fun hk => ?_) rfl rfl
      constructor
      · rintro ⟨u, hu, e⟩
        exact ⟨u, by simp [hu], e⟩
      rintro ⟨u, hu, e⟩
      obtain hu | hu := List.mem_append.mp hu
      · exact ⟨u, hu, e⟩
      · rw [List.mem_singleton.mp hu, ho, Option.map_some, h0] at e
        exact absurd (Option.some.inj e).symm hk
  · refine ⟨{ x with
      pool := x.pool.setIfInBounds s o, idmap := x.idmap.insert o.orderId s }, ?_, { h with
      pool_size := by simpa using h.pool_size
      pool := hpool
      ids := fun k => ?_ }⟩
    · have e : sink.putOrder s o x = .ok () { x with
          pool := x.pool.setIfInBounds s o, idmap := x.idmap.insert o.orderId s } := by
        simp only [sink, bind_ok hset, ite_run]
        rw [if_pos h0]
        rfl
      simp only [lift, e]
    · change (if k = o.orderId then some s else x.idmap k) = _
      by_cases hk : k = o.orderId
      · subst hk
        rw [if_pos rfl, if_pos ⟨h0, s, by simp, by rw [ho]; rfl⟩, hid h0]
      · rw [if_neg hk, h.ids k]
        refine if_congr (and_congr_right fun _ => ?_) rfl rfl
        constructor
        · rintro ⟨u, hu, e⟩
          exact ⟨u, by simp [hu], e⟩
        rintro ⟨u, hu, e⟩
        obtain hu | hu := List.mem_append.mp hu
        · exact ⟨u, hu, e⟩
        · rw [List.mem_singleton.mp hu, ho, Option.map_some] at e
          exact absurd (Option.some.inj e).symm hk

/-- What the blocks of an image name. -/
def LevelRec.key (r : LevelRec) : Nat × Nat := (r.1, r.2.1)

open Decoder in
theorem Patched.putLevels {z : Book} {ss : List Nat} (rs : List LevelRec)
    (hrs : ∀ r ∈ rs, r.1 ≤ 1 ∧ r.2.1 < (z.lane r.1).size ∧ (b.lane r.1)[r.2.1]? = some r.2.2)
    {x : Book}
    {ls : List (Nat × Nat)} (h : Patched b z x ls ss) :
    ∃ x', runAll (fun r : LevelRec => lift (sink.putLevel r.1 r.2.1 r.2.2)) rs x = .ok () x' ∧
      Patched b z x' (ls ++ rs.map LevelRec.key) ss := by
  induction rs generalizing x ls with
  | nil => exact ⟨x, rfl, by simpa using h⟩
  | cons r rs ih =>
    obtain ⟨hs, ht, hl⟩ := hrs r (by simp)
    obtain ⟨x₁, e₁, h₁⟩ := h.putLevel hs ht hl
    obtain ⟨x', e', h'⟩ := ih (fun r hr => hrs r (by simp [hr])) h₁
    refine ⟨x', (bind_ok e₁ _).trans e', ?_⟩
    simpa [LevelRec.key] using h'

open Decoder in
theorem Patched.putOrders {z : Book} {ls : List (Nat × Nat)} (rs : List OrderRec)
    (hrs : ∀ r ∈ rs, r.1 < z.pool.size ∧ b.pool[r.1]? = some r.2 ∧
      (r.2.orderId ≠ 0 → b.idmap r.2.orderId = some r.1)) {x : Book}
    {ss : List Nat} (h : Patched b z x ls ss) :
    ∃ x', runAll (fun r : OrderRec => lift (sink.putOrder r.1 r.2)) rs x = .ok () x' ∧
      Patched b z x' ls (ss ++ rs.map Prod.fst) := by
  induction rs generalizing x ss with
  | nil => exact ⟨x, rfl, by simpa using h⟩
  | cons r rs ih =>
    obtain ⟨hs, ho, hid⟩ := hrs r (by simp)
    obtain ⟨x₁, e₁, h₁⟩ := h.putOrder hs ho hid
    obtain ⟨x', e', h'⟩ := ih (fun r hr => hrs r (by simp [hr])) h₁
    refine ⟨x', (bind_ok e₁ _).trans e', ?_⟩
    simpa using h'

open Decoder in
/-- The records of an image, each taken from `b`, put into a fresh book `z`. -/
theorem putRecords_patched {z : Book} {m : Image}
    (hl : ∀ r ∈ m.levels, r.1 ≤ 1 ∧ r.2.1 < (z.lane r.1).size ∧ (b.lane r.1)[r.2.1]? = some r.2.2)
    (ho : ∀ r ∈ m.orders, r.1 < z.pool.size ∧ b.pool[r.1]? = some r.2 ∧
      (r.2.orderId ≠ 0 → b.idmap r.2.orderId = some r.1)) :
    ∃ x, putRecords sink m z = .ok () x ∧
      Patched b z x (m.levels.map LevelRec.key) (m.orders.map Prod.fst) := by
  obtain ⟨x₁, e₁, h₁⟩ := (Patched.refl b z).putLevels m.levels hl
  obtain ⟨x, e, h⟩ := h₁.putOrders m.orders ho
  exact ⟨x, (bind_ok e₁ _).trans e, by simpa using h⟩

theorem order_mem (hb : b.Shows cap f) (h : Rep f L q) (hcap : f.hwm ≤ cap) {r : OrderRec}
    (hr : r ∈ b.source.image.orders) :
    r.1 < f.hwm ∧ b.pool[r.1]? = some r.2 ∧
      (r.2.orderId ≠ 0 → b.idmap r.2.orderId = some r.1) := by
  obtain ⟨s, hs, rfl⟩ := List.mem_map.mp (mem_of_mem_kept hr)
  have hlt : s < b.source.scalars.hwm := by simpa using hs
  replace hlt : s < f.hwm := by rw [← hb.view]; exact hlt
  have hsize : s < b.pool.size := by rw [hb.pool]; omega
  have hsome := Array.getElem?_eq_getElem hsize
  have e : b.source.order s = some b.pool[s] := hsome
  obtain ⟨-, ho⟩ := source_order hb e
  rw [e, Option.getD_some]
  refine ⟨hlt, hsome, fun hid => ?_⟩
  have : b.idmap = f.ids := by rw [← hb.view]; rfl
  rw [this, ho]
  exact (h.ids _ s).mpr ⟨h.live s hlt (ho ▸ hid), rfl⟩

end Book

theorem Decoder.checked_body (crc32c : List UInt8 → UInt32) (body : List UInt8) :
    checked crc32c (body ++ le 4 (crc32c body).toNat) = .ok body := by
  have hlen : (body ++ le 4 (crc32c body).toNat).length = body.length + 4 := by simp
  unfold checked
  simp only [hlen, Nat.add_sub_cancel, List.take_left, List.drop_left]
  rw [if_neg (by omega), unle_le_of_lt (by simpa using (crc32c body).toNat_lt), if_neg (by simp)]
  rfl

theorem Decoder.checked_sealed (crc32c : List UInt8 → UInt32) (m : Image) :
    Decoder.checked crc32c (Encoder.sealed crc32c m) = .ok (bytes m.fields) :=
  checked_body crc32c _

namespace Book

variable {cap : Nat} {b : Book} {f : Flat} {L : Ledger} {q : Lane → Nat → List Nat}

/-- A book as `restore` starts from: the scalars of `b`, and nothing else. -/
def blankOf (cfg : SmrConfig) (b : Book) : Book := Decoder.setScalars sink b.source.scalars (new cfg)

theorem blankOf_lane {cfg : SmrConfig} (side t : Nat) :
    ((blankOf cfg b).lane side)[t]? = if t < cfg.levels then some PriceLevel.EMPTY else none := by
  have e : (blankOf cfg b).lane side = Array.replicate cfg.levels PriceLevel.EMPTY := by
    simp [blankOf, Decoder.setScalars, sink, lane, new]
  rw [e, Array.getElem?_replicate]

theorem blankOf_pool {cfg : SmrConfig} (s : Nat) :
    (blankOf cfg b).pool[s]? = if s < cfg.cap then some Order.zero else none :=
  Array.getElem?_replicate

theorem blankOf_lane_size {cfg : SmrConfig} (side : Nat) :
    ((blankOf cfg b).lane side).size = cfg.levels := by
  simp [blankOf, Decoder.setScalars, sink, lane, new]

theorem blankOf_pool_size {cfg : SmrConfig} : (blankOf cfg b).pool.size = cfg.cap :=
  Array.size_replicate

/-- The image of a book, restored under a configuration with room for what it holds. -/
theorem restore_sealed {cfg : SmrConfig} (crc32c : List UInt8 → UInt32) (hb : b.Shows cap f)
    (h : Rep f L q) {fl : List Nat} (hfl : FreeList f L fl) (hcap : f.hwm ≤ cap)
    (hg : Encoder.NoEmptyGroup b.source) (hfit : u32 cap = cfg.cap →
      (∀ r ∈ b.source.image.levels, r.2.1 < cfg.levels) ∧
        ∀ r ∈ b.source.image.orders, r.1 < cfg.cap) :
    if u32 cap = cfg.cap then
      ∃ x, restore crc32c (Encoder.sealed crc32c b.source.image) cfg = .ok x ∧
        Patched b (blankOf cfg b) x (b.source.image.levels.map LevelRec.key)
          (b.source.image.orders.map Prod.fst)
    else ∃ text, restore crc32c (Encoder.sealed crc32c b.source.image) cfg = .error (.err text) := by
  have hmsg := Decoder.message_image sink (image_plain hb h hfl hg) cfg.cap (new cfg)
  have hscal : b.source.image.scalars.capacity = u32 cap := by rw [← hb.pool]; rfl
  rw [hscal] at hmsg
  have hrest : restore crc32c (Encoder.sealed crc32c b.source.image) cfg =
      Decoder.into sink (bytes b.source.image.fields) cfg.cap (new cfg) := by
    rw [restore, Decoder.checked_sealed]
    rfl
  rw [hrest, Decoder.into, hmsg]
  split
  · rename_i heq
    obtain ⟨hfl, hfo⟩ := hfit heq
    have hlevels : ∀ r ∈ b.source.image.levels, r.1 ≤ 1 ∧
        r.2.1 < ((blankOf cfg b).lane r.1).size ∧ (b.lane r.1)[r.2.1]? = some r.2.2 := by
      intro r hr
      obtain ⟨hs, hl, -⟩ := mem_levelRecs (mem_of_mem_kept hr)
      exact ⟨hs, by rw [blankOf_lane_size]; exact hfl r hr, hl⟩
    have horders : ∀ r ∈ b.source.image.orders, r.1 < (blankOf cfg b).pool.size ∧
        b.pool[r.1]? = some r.2 ∧ (r.2.orderId ≠ 0 → b.idmap r.2.orderId = some r.1) := by
      intro r hr
      obtain ⟨-, ho, hid⟩ := order_mem hb h hcap hr
      exact ⟨by rw [blankOf_pool_size]; exact hfo r hr, ho, hid⟩
    obtain ⟨x, e, hx⟩ := putRecords_patched hlevels horders
    have e' : Decoder.putRecords sink b.source.image
        (Decoder.setScalars sink b.source.image.scalars (new cfg)) = .ok () x := e
    rw [e']
    exact ⟨x, rfl, hx⟩
  · exact ⟨_, rfl⟩

end Book

end HiPerf
