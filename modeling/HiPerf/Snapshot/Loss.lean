import HiPerf.Snapshot.Head
import HiPerf.Snapshot.Restart

/-!
What an image loses. Its groups count their blocks in 16 bits, and a block past
the declared count goes over the last one, so from 65536 slots in use on the
image holds only some of them, unless encoder or decoder stops.
-/

namespace HiPerf

open Machine Exec Bytes Fifo

namespace Book

/-- Two books agree on everything below the mark of used slots: the live orders,
the level chains, the mark, the free list and the id-map. -/
structure SameBelow (x b : Book) : Prop where
  hwm : x.hwm = b.hwm
  live : ∀ s, x.Live s ↔ b.Live s
  order : ∀ s, b.Live s → x.slot s = b.slot s
  level : ∀ side ≤ 1, ∀ t, x.levelAt side t = b.levelAt side t
  free : ∀ fl, x.FreeChain fl ↔ b.FreeChain fl
  idmap : x.idmap = b.idmap

theorem SameBelow.refl (b : Book) : b.SameBelow b :=
  ⟨rfl, fun _ => Iff.rfl, fun _ _ => rfl, fun _ _ _ => rfl, fun _ => Iff.rfl, rfl⟩

/-- How many levels are occupied. -/
def occupied (b : Book) : Nat :=
  b.bids.toList.countP (·.head ≠ NIL) + b.asks.toList.countP (·.head ≠ NIL)

theorem laneRecs_length (b : Book) (side : Nat) :
    (b.source.laneRecs side 0 (b.lane side).size).length =
      (b.lane side).toList.countP (·.head ≠ NIL) := by
  have hlist : ∀ ls : List PriceLevel, ∀ pre : List PriceLevel,
      ((List.range' pre.length ls.length).filterMap fun u =>
        ((pre ++ ls)[u]?).bind fun l =>
          if l.head = NIL then none else some ((side, u, l) : LevelRec)).length =
        ls.countP (·.head ≠ NIL) := by
    intro ls
    induction ls with
    | nil => intro pre; rfl
    | cons l ls ih =>
      intro pre
      have := ih (pre ++ [l])
      simp only [List.append_assoc, List.singleton_append, List.length_append, List.length_cons,
        List.length_nil, Nat.zero_add] at this
      rw [List.length_cons, List.range'_succ, List.filterMap_cons, List.getElem?_append_right
        (Nat.le_refl _), Nat.sub_self, List.getElem?_cons_zero, Option.bind_some, List.countP_cons,
        ← this]
      by_cases h : l.head = NIL <;> simp [h]
  have := hlist (b.lane side).toList []
  simp only [List.nil_append, List.length_nil, Array.length_toList, Array.getElem?_toList] at this
  exact this

theorem levelRecs_length (b : Book) : b.source.levelRecs.length = b.occupied := by
  rw [Source.levelRecs, List.length_append]
  exact congrArg₂ (· + ·) (laneRecs_length b 0) (laneRecs_length b 1)

variable {cfg : SmrConfig} {b : Book} {f : Flat} {L : Ledger} {q : Lane → Nat → List Nat}

/-- Of more slots than the group can count, the image has the first ones and the last. -/
theorem kept_orders {v : Source} {m n : Nat} (hm : 0 < m) (hn : m ≤ n) {s : Nat} :
    s ∈ (kept m (v.orderRecs 0 (n + 1))).map Prod.fst ↔ s < m - 1 ∨ s = n := by
  have hsplit : v.orderRecs 0 (n + 1) =
      v.orderRecs 0 n ++ [(n, (v.order n).getD Order.zero)] := by
    simp [Source.orderRecs, List.range'_concat]
  have hfst : (v.orderRecs 0 n).map Prod.fst = List.range n := by
    rw [Source.orderRecs, List.map_map, List.range_eq_range']
    exact List.map_id _
  rw [hsplit, kept_of_gt hm _ (by simpa [Source.orderRecs] using hn), List.map_append, List.map_take,
    hfst, List.take_range, List.mem_append, List.mem_range]
  simp only [List.map_cons, List.map_nil, List.mem_singleton]
  refine or_congr_left ?_
  rw [Nat.min_eq_left (by omega)]

/-- With more slots in use than the group can count, the restored book has lost some. -/
theorem loses (hb : b.Shows cfg.cap f) (h : Rep f L q) {fl : List Nat} (hfl : FreeList f L fl)
    (hle : f.hwm ≤ cfg.cap) (hn : f.grid.nLevels = cfg.levels) (hcap : cfg.cap < 4294967296)
    (hhwm : 65535 < b.hwm) (hmod : ¬ 65536 ∣ b.hwm) (hocc : b.occupied ≠ 0 → ¬ 65536 ∣ b.occupied)
    (crc32c : List UInt8 → UInt32) {buf : List UInt8} (hbuf : b.source.room ≤ buf.length) :
    ∃ data len x, b.encode crc32c buf = .ok (data, len) ∧
      restore crc32c (data.take len) cfg = .ok x ∧ ¬ x.SameBelow b := by
  have hg : Encoder.NoEmptyGroup b.source := by
    refine ⟨fun hne h0 => ?_, fun _ h0 => hmod (Nat.dvd_of_mod_eq_zero h0)⟩
    rw [levelRecs_length] at h0
    refine hocc (fun e => hne ?_) (Nat.dvd_of_mod_eq_zero h0)
    exact List.eq_nil_of_length_eq_zero ((levelRecs_length b).trans e)
  obtain ⟨data, e, hdata⟩ := Encoder.encode_ok crc32c (source_readable hb h hle) hg hbuf
  have hrest := @restore_sealed _ _ _ _ _ cfg crc32c hb h _ hfl hle hg fun _ => by
    refine ⟨fun r hr => ?_, fun r hr => ?_⟩
    · obtain ⟨-, hl, hnil⟩ := mem_levelRecs (mem_of_mem_kept hr)
      exact hn ▸ h.occupied_lt (source_level hb hl ▸ hnil)
    · exact Nat.lt_of_lt_of_le (order_mem hb h hle hr).1 hle
  rw [if_pos (u32_eq_self hcap)] at hrest
  obtain ⟨x, ex, hx⟩ := hrest
  refine ⟨data, _, x, e, by rw [hdata, ex], fun hsame => ?_⟩
  -- neither of the slots `m` and `m - 1` is in the image
  set m := b.hwm % 65536 with hm
  have hpos : 0 < m := Nat.pos_of_ne_zero fun h0 => hmod (Nat.dvd_of_mod_eq_zero h0)
  have hlt : m < 65536 := Nat.mod_lt _ (by decide)
  have hlost : ∀ s, m - 1 ≤ s → s < b.hwm - 1 → x.slot s = Order.zero := by
    intro s h₁ h₂
    have hnot : s ∉ b.source.image.orders.map Prod.fst := by
      have ek := @kept_orders b.source m (b.hwm - 1) hpos (by omega) s
      rw [show b.hwm - 1 + 1 = b.hwm by omega] at ek
      exact fun hs => by have := ek.mp hs; omega
    rw [slot, hx.pool s, if_neg hnot, blankOf_pool]
    split <;> rfl
  obtain ⟨fl', hfree⟩ : ∃ fl', b.FreeChain fl' := ⟨fl, hb.freeChain hfl⟩
  have hmem : ∀ s, m - 1 ≤ s → s < b.hwm - 1 → s ∈ fl' := by
    intro s h₁ h₂
    obtain hl | hs := (hfree.partition s).mp (by omega)
    · have hx' := (hsame.live s).mpr hl
      exact absurd (by rw [hlost s h₁ h₂]; rfl) hx'.2
    · exact hs
  have hnil : ∀ s, m - 1 ≤ s → s < b.hwm - 1 → (x.slot s).next = NIL := by
    intro s h₁ h₂
    rw [hlost s h₁ h₂]
    rfl
  have := ((hsame.free fl').mpr hfree).chain.next_eq_nil (hmem (m - 1) (by omega) (by omega))
    (hmem m (by omega) (by omega)) (hnil (m - 1) (by omega) (by omega)) (hnil m (by omega) (by omega))
  omega

/-- A capacity of 2^32 and more does not come back from an image. -/
theorem restore_refuses {c : SmrConfig} (hcap : u32 b.pool.size ≠ c.cap)
    {crc32c : List UInt8 → UInt32} {buf data : List UInt8} {len : Nat}
    (h : b.encode crc32c buf = .ok (data, len)) :
    ∃ text, restore crc32c (data.take len) c = .error (.err text) := by
  have hne : u32 b.pool.size % 4294967296 ≠ c.cap := by
    rw [Nat.mod_eq_of_lt (u32_lt _)]
    exact hcap
  obtain ⟨body, e, hrefuse⟩ := @Decoder.refuses _ sink _ _ _ b.source _ _ hne h
  rw [restore, e]
  exact hrefuse (new c)

end Book

/-- When a snapshot loses nothing without a word. Among the books that well-formed
calls reach, these are the ones whose image comes back whole or not at all: those
with a capacity that 32 bits do not hold, those with at most 65535 slots in use,
and those for which a group of the image would have to declare no block. -/
theorem snapshot_lossless_iff {cfg : SmrConfig} (hg : cfg.grid.Ok) {ops : List Op} {b : Book}
    (hwf : WellFormed cfg [] ops) (hrun : Book.run ops (Book.new cfg) = .ok () b)
    (crc32c : List UInt8 → UInt32) {buf : List UInt8} (hbuf : b.source.room ≤ buf.length) :
    (∀ data len x, b.encode crc32c buf = .ok (data, len) →
      Book.restore crc32c (data.take len) cfg = .ok x → x.SameBelow b) ↔
    4294967296 ≤ cfg.cap ∨ b.hwm ≤ 65535 ∨ 65536 ∣ b.hwm ∨
      (b.occupied ≠ 0 ∧ 65536 ∣ b.occupied) := by
  by_cases hcap : 4294967296 ≤ cfg.cap
  · refine iff_of_true (fun data len x e ex => ?_) (.inl hcap)
    have hpool : b.pool.size = cfg.cap := by
      have hshape := Book.run_shaped ops (Book.new cfg)
      rw [last_ok hrun] at hshape
      rw [hshape.pool]
      exact Array.size_replicate
    have hne : u32 b.pool.size ≠ cfg.cap := by
      rw [hpool]
      exact Nat.ne_of_lt (Nat.lt_of_lt_of_le (u32_lt _) hcap)
    obtain ⟨text, e'⟩ := Book.restore_refuses hne e
    rw [ex] at e'
    cases e'
  have hlt : cfg.cap < 4294967296 := Nat.lt_of_not_le hcap
  obtain ⟨f, hb, ⟨q, fl, hrep, hfl, hle⟩, hgrid, -⟩ := reached hg hwf (hwf.slotsFit hlt) hrun
  constructor
  · intro hall
    by_contra hnot
    simp only [not_or, not_and] at hnot
    obtain ⟨-, hhwm, hmod, hocc⟩ := hnot
    obtain ⟨data, len, x, e, ex, hne⟩ := Book.loses hb hrep hfl hle (by rw [hgrid]; rfl) hlt
      (by omega) hmod hocc crc32c hbuf
    exact hne (hall data len x e ex)
  · rintro (h | h | h) data len x e ex
    · exact absurd h hcap
    · obtain ⟨data', len', e', ex'⟩ := Book.restore_self hg hlt hwf hrun h crc32c hbuf
      rw [e] at e'
      cases e'
      rw [ex] at ex'
      cases ex'
      exact Book.SameBelow.refl b
    · by_cases hgroups : Encoder.NoEmptyGroup b.source
      · obtain ⟨h₁, h₂⟩ := hgroups
        have hhwm : b.hwm ≤ 65535 := by
          obtain h | ⟨hne, h⟩ := h
          · by_contra hgt
            refine h₂ (fun h0 => hgt ?_) (Nat.mod_eq_zero_of_dvd h)
            rw [show b.hwm = 0 from h0]
            omega
          · refine absurd (Nat.mod_eq_zero_of_dvd h) ?_
            rw [← Book.levelRecs_length] at hne ⊢
            exact h₁ fun e => hne (by rw [e]; rfl)
        obtain ⟨data', len', e', ex'⟩ := Book.restore_self hg hlt hwf hrun hhwm crc32c hbuf
        rw [e] at e'
        cases e'
        rw [ex] at ex'
        cases ex'
        exact Book.SameBelow.refl b
      · obtain ⟨p, e'⟩ := Encoder.encode_stops crc32c (Book.source_readable hb hrep hle) hgroups buf
        rw [Book.encode, e'] at e
        cases e

theorem snapshot_lossless_iff_smallRun :
    ∃ b, Book.run smallRun (Book.new smallBook) = .ok () b ∧ b.hwm ≤ 65535 ∧
      ∀ data len x,
        b.encode (fun _ => 0) (List.replicate b.source.room 0) = .ok (data, len) →
        Book.restore (fun _ => 0) (data.take len) smallBook = .ok x → x.SameBelow b := by
  obtain ⟨b, e, hb⟩ := (Book.run_holds smallBook_ok rfl (Book.new_holds smallBook_ok)
    smallRun_wellFormed smallRun_fits).1 _ (Book.new_shows smallBook)
  have hhwm : b.hwm ≤ 65535 := by
    obtain ⟨f, hf, ⟨q, fl, -, -, hle⟩, -⟩ := reached smallBook_ok smallRun_wellFormed
      (smallRun_wellFormed.slotsFit (by decide)) e
    rw [hf.hwm_eq]
    exact hle.trans (by decide)
  have hbuf : b.source.room ≤ (List.replicate b.source.room (0 : UInt8)).length :=
    Nat.le_of_eq List.length_replicate.symm
  exact ⟨b, e, hhwm, (snapshot_lossless_iff smallBook_ok smallRun_wellFormed e (fun _ => 0) hbuf).mpr
    (.inr (.inl hhwm))⟩

/-- A pool with more slots than the image can count. -/
def bigPool : SmrConfig := { hugePool with cap := 65537 }

theorem bigPool_ok : bigPool.grid.Ok := ⟨by decide, by decide, by decide, by decide, by decide⟩

theorem bigPool_wellFormed : WellFormed bigPool [] (bidsUpTo 65537) := by
  rw [bidsUpTo_eq]
  exact bidsAt_wellFormed bigPool_ok (by decide) (by decide)

theorem bigPool_fits : Fits bigPool [] (bidsUpTo 65537) := by
  rw [bidsUpTo_eq]
  exact bidsAt_fits (by decide)

/-- 65537 resting orders: the image declares one slot, holds the last one, and is
restored without a word. -/
theorem snapshot_loses_bigPool :
    bigPool.grid.Ok ∧ WellFormed bigPool [] (bidsUpTo 65537) ∧
      ∃ b, Book.run (bidsUpTo 65537) (Book.new bigPool) = .ok () b ∧
        ∀ (crc32c : List UInt8 → UInt32) (buf : List UInt8), b.source.room ≤ buf.length →
          ∃ data len x, b.encode crc32c buf = .ok (data, len) ∧
            Book.restore crc32c (data.take len) bigPool = .ok x ∧ ¬ x.SameBelow b := by
  have hwf := bigPool_wellFormed
  obtain ⟨hrun, ⟨q, fl, hrep, hfl, hle⟩, hgrid⟩ :=
    Book.run_holds bigPool_ok rfl (Book.new_holds bigPool_ok) hwf bigPool_fits
  obtain ⟨b, e, hb⟩ := hrun _ (Book.new_shows bigPool)
  have hlen : (Ledger.after [] (bidsUpTo 65537)).length = 65537 := by
    rw [after_bidsUpTo, List.length_map, List.length_range]
  have hcount := hfl.count
  have hhwm : b.hwm = 65537 := by
    have := hb.hwm_eq
    have hc : bigPool.cap = 65537 := rfl
    omega
  have hocc : b.occupied ≤ 2 := by
    have hshape := Book.run_shaped (bidsUpTo 65537) (Book.new bigPool)
    rw [last_ok e] at hshape
    have hbids : b.bids.size = 1 := hshape.bids.trans Array.size_replicate
    have hasks : b.asks.size = 1 := hshape.asks.trans Array.size_replicate
    have h₁ := @List.countP_le_length _ (fun l : PriceLevel => decide (l.head ≠ NIL)) b.bids.toList
    have h₂ := @List.countP_le_length _ (fun l : PriceLevel => decide (l.head ≠ NIL)) b.asks.toList
    rw [Array.length_toList] at h₁ h₂
    unfold Book.occupied
    omega
  refine ⟨bigPool_ok, hwf, b, e, fun crc32c buf hbuf => ?_⟩
  exact Book.loses hb hrep hfl hle (by rw [hgrid]; rfl) (by decide) (by omega) (by omega)
    (by omega) crc32c hbuf

end HiPerf
