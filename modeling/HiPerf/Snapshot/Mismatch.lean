import HiPerf.Book.Gaps
import HiPerf.Snapshot.Loss
import HiPerf.Snapshot.Wide

/-!
Restoring under a configuration other than the one the book had. The decoders
take the grid from the image and the lanes from the configuration, and compare
only the capacities.
-/

namespace HiPerf

open Machine Exec

/-- What `SmrConfig::from_env` lets through. -/
structure SmrConfig.Accepted (cfg : SmrConfig) : Prop where
  cap_pos : 1 ≤ cfg.cap
  cap_le : cfg.cap ≤ USIZE_MAX
  levels_pos : 1 ≤ cfg.levels
  levels_le : cfg.levels ≤ 65535
  tick_pos : 0 < cfg.tick
  tick_i64 : InI64 cfg.tick
  priceMin_i64 : InI64 cfg.priceMin
  steady_pos : 1 ≤ cfg.steady
  steady_le : cfg.steady ≤ cfg.cap ∧ cfg.steady ≤ 65535
  chunk_pos : 1 ≤ cfg.chunk
  chunk_le : cfg.chunk ≤ cfg.cap
  otrBps_le : cfg.otrBps ≤ 10000

theorem SmrConfig.Accepted.grid_ok {cfg : SmrConfig} (h : cfg.Accepted) : cfg.grid.Ok :=
  ⟨h.tick_pos, h.tick_i64, h.priceMin_i64, h.levels_pos, h.levels_le.trans (by decide)⟩

/-- Every well-formed sequence that `b` completes, `x` completes with the same
best prices, the same level aggregates and the same images. -/
def Book.GoesOn (crc32c : List UInt8 → UInt32) (cfg : SmrConfig) (L : Ledger) (x b : Book) : Prop :=
  ∀ post b', WellFormed cfg L post → Book.run post b = .ok () b' →
    ∃ x', Book.run post x = .ok () x' ∧ x'.bestBid = b'.bestBid ∧ x'.bestAsk = b'.bestAsk ∧
      (∀ side t, x'.levelAt side t = b'.levelAt side t) ∧
      ∀ buf, x'.encode crc32c buf = b'.encode crc32c buf

def CowBook.GoesOn (crc32c : List UInt8 → UInt32) (cfg : SmrConfig) (L : Ledger) (y : CowBook)
    (b : Book) : Prop :=
  ∀ post b', WellFormed cfg L (CowCall.ops post) → Book.run (CowCall.ops post) b = .ok () b' →
    ∃ y', CowBook.run post y = .ok () y' ∧ y'.bestBid = b'.bestBid ∧ y'.bestAsk = b'.bestAsk ∧
      (∀ side t, (y'.level? side t).getD PriceLevel.EMPTY = b'.levelAt side t) ∧
      ∀ buf, encodeRoot crc32c y'.root (fun _ => y'.mem) buf = b'.encode crc32c buf

/-- Under `c₂` the image of every book that `c₁` reaches is refused, or restored
to a book that goes on as the one encoded. -/
def RestoresUnder (crc32c : List UInt8 → UInt32) (c₁ c₂ : SmrConfig) : Prop :=
  ∀ ops b, WellFormed c₁ [] ops → Book.run ops (Book.new c₁) = .ok () b → b.hwm ≤ 65535 →
    ∀ buf data len, b.source.room ≤ buf.length → b.encode crc32c buf = .ok (data, len) →
      (∃ text, Book.restore crc32c (data.take len) c₂ = .error (.err text)) ∨
      ∃ x, Book.restore crc32c (data.take len) c₂ = .ok x ∧
        x.GoesOn crc32c c₁ (Ledger.after [] ops) b

/-- The same of the copy-on-write books, which go on as the flat book does that
was given the same calls. -/
def RestoresCowUnder (crc32c : List UInt8 → UInt32) (c₁ c₂ : SmrConfig) : Prop :=
  ∀ calls b w₀ w r w', WellFormed c₁ [] (CowCall.ops calls) →
    Book.run (CowCall.ops calls) (Book.new c₁) = .ok () b → b.hwm ≤ 65535 →
    CowBook.new c₁ = .ok w₀ → CowBook.run calls w₀ = .ok () w → CowBook.capture w = .ok r w' →
    ∀ buf data len, b.source.room ≤ buf.length →
      encodeRoot crc32c r (fun _ => w'.mem) buf = .ok (data, len) →
      (∃ text, restoreCow crc32c (data.take len) c₂ = .error (.err text)) ∨
      ∃ y, restoreCow crc32c (data.take len) c₂ = .ok y ∧
        y.GoesOn crc32c c₁ (Ledger.after [] (CowCall.ops calls)) b

/-- The capacity is seen to differ, or the pools and the ladder fit. -/
def SmrConfig.FitsInto (c₁ c₂ : SmrConfig) : Prop :=
  u32 c₁.cap ≠ c₂.cap ∨ (c₁.cap = c₂.cap ∧ c₁.levels ≤ c₂.levels)

variable {c₁ c₂ : SmrConfig} {b : Book} {crc32c : List UInt8 → UInt32}

theorem run_pool {ops : List Op} (hrun : Book.run ops (Book.new c₁) = .ok () b) :
    b.pool.size = c₁.cap := by
  have hshape := Book.run_shaped ops (Book.new c₁)
  rw [last_ok hrun] at hshape
  rw [hshape.pool]
  exact Array.size_replicate

/-- A copy-on-write book refuses what a flat book refuses. -/
theorem restoreCow_refuses (hchunk : 1 ≤ c₂.chunk) (hcap : u32 b.pool.size ≠ c₂.cap)
    {buf data : List UInt8} {len : Nat} (h : b.encode crc32c buf = .ok (data, len)) :
    ∃ text, restoreCow crc32c (data.take len) c₂ = .error (.err text) := by
  obtain ⟨w₀, e₀, -⟩ := CowBook.new_mirrors hchunk
  have hne : u32 b.pool.size % 4294967296 ≠ c₂.cap := by
    rw [Nat.mod_eq_of_lt (u32_lt _)]
    exact hcap
  obtain ⟨body, e, hrefuse⟩ := @Decoder.refuses _ CowBook.sink _ _ _ b.source _ _ hne h
  rw [restoreCow, e, e₀]
  exact hrefuse w₀

/-- Books that show the same memory, one of them without spare levels, complete
the same well-formed sequences and show the same after them. -/
theorem shows_run (hg : c₁.grid.Ok) (hcap : c₁.cap < 4294967296) {f : Flat} {x b' : Book}
    (hb : b.Shows c₁.cap f) (hx : x.Shows c₁.cap f) (hgrid : f.grid = c₁.grid) (hnarrow : b.Narrow)
    {L : Ledger} (hholds : f.Holds c₁.cap L) {post : List Op} (hwf : WellFormed c₁ L post)
    (hrun : Book.run post b = .ok () b') :
    ∃ x' f', Book.run post x = .ok () x' ∧ x'.Shows c₁.cap f' ∧ b'.Shows c₁.cap f' ∧ b'.Narrow := by
  have hready := Book.run_completes hg hb hgrid hnarrow hholds hwf (hwf.slotsFit hcap) hrun
  obtain ⟨hruns, -, -⟩ := Book.run_ready hgrid hholds hready
  obtain ⟨x', ex, hx'⟩ := hruns x hx
  obtain ⟨b'', eb, hb'⟩ := hruns b hb
  rw [hrun] at eb
  cases eb
  have hshape := Book.run_shaped post b
  rw [last_ok hrun] at hshape
  exact ⟨x', _, ex, hx', hb', hnarrow.of_shape hshape⟩

theorem levelAt_same {cap : Nat} {f : Flat} {x : Book} (hx : x.Shows cap f) (hb : b.Shows cap f)
    (side t : Nat) : x.levelAt side t = b.levelAt side t := by
  rw [hx.levelAt_eq, hb.levelAt_eq]

theorem bests_same {cap : Nat} {f : Flat} {x : Book} (hx : x.Shows cap f) (hb : b.Shows cap f) :
    x.bestBid = b.bestBid ∧ x.bestAsk = b.bestAsk := by
  have hv := hx.view.trans hb.view.symm
  exact ⟨congrArg Flat.bestBid hv, congrArg Flat.bestAsk hv⟩

theorem SmrConfig.FitsInto.restores (hg : c₁.grid.Ok) (h : c₁.FitsInto c₂) : RestoresUnder crc32c c₁ c₂ := by
  intro ops b hwf hrun hhwm buf data len hbuf e
  by_cases hu : u32 c₁.cap = c₂.cap
  · obtain ⟨hcap, hlevels⟩ := h.resolve_left (not_not.mpr hu)
    have hlt : c₁.cap < 4294967296 := by
      rw [hcap, ← hu]
      exact u32_lt _
    obtain ⟨f, hb, ⟨q, fl, hrep, hfl, hle⟩, hgrid, hnarrow⟩ :=
      reached hg hwf (hwf.slotsFit hlt) hrun
    have hf : f.hwm ≤ 65535 := by rw [← hb.hwm_eq]; exact hhwm
    obtain ⟨data', len', x, e', ex, hx, -, -⟩ := Book.restore_encode crc32c (hcap ▸ hb) hrep hfl
      (hcap ▸ hle) (by rw [hgrid]; exact hlevels) (hcap ▸ hlt) hf hbuf
    rw [e] at e'
    cases e'
    refine .inr ⟨x, ex, fun post b' hpost hrun' => ?_⟩
    obtain ⟨x', f', erun, hx', hb', hn'⟩ := shows_run hg hlt hb (hcap ▸ hx) hgrid hnarrow
      ⟨q, fl, hrep, hfl, hle⟩ hpost hrun'
    obtain ⟨hbid, hask⟩ := bests_same hx' hb'
    exact ⟨x', erun, hbid, hask, levelAt_same hx' hb', Book.encode_same hx' hb' hn' crc32c⟩
  · exact .inl (Book.restore_refuses (by rw [run_pool hrun]; exact hu) e)

theorem SmrConfig.FitsInto.restoresCow (hg : c₁.grid.Ok) (hchunk : 1 ≤ c₁.chunk) (hchunk' : 1 ≤ c₂.chunk)
    (h : c₁.FitsInto c₂) : RestoresCowUnder crc32c c₁ c₂ := by
  intro calls b w₀ w r w' hwf hrun hhwm e₀ ew ecap buf data len hbuf e
  cases ecap
  obtain ⟨w₁, e₁, h₁⟩ := CowBook.new_mirrors hchunk
  rw [e₀] at e₁
  cases e₁
  obtain ⟨b', eb, hw⟩ := (CowBook.run_tracks calls).forth h₁ ew
  rw [hrun] at eb
  cases eb
  have himage := hw.encodeRoot (CowBook.run_narrow hrun) (fun _ _ => rfl) (fun _ _ _ => rfl) crc32c buf
  have henc : b.encode crc32c buf = .ok (data, len) := himage.symm.trans e
  by_cases hu : u32 c₁.cap = c₂.cap
  · obtain ⟨hcap, hlevels⟩ := h.resolve_left (not_not.mpr hu)
    have hlt : c₁.cap < 4294967296 := by
      rw [hcap, ← hu]
      exact u32_lt _
    obtain ⟨f, hb, ⟨q, fl, hrep, hfl, hle⟩, hgrid, hnarrow⟩ :=
      reached hg hwf (hwf.slotsFit hlt) hrun
    have hf : f.hwm ≤ 65535 := by rw [← hb.hwm_eq]; exact hhwm
    have hgroups := Book.noEmptyGroup hb hrep hf
    obtain ⟨data', e', hseal⟩ :=
      Encoder.encode_ok crc32c (Book.source_readable hb hrep hle) hgroups hbuf
    rw [Book.encode, e'] at henc
    cases henc
    obtain ⟨data₂, len₂, x, e₂, ex, hx, -, -⟩ := Book.restore_encode crc32c (hcap ▸ hb) hrep hfl
      (hcap ▸ hle) (by rw [hgrid]; exact hlevels) (hcap ▸ hlt) hf hbuf
    rw [Book.encode, e'] at e₂
    cases e₂
    rw [hseal] at ex ⊢
    obtain ⟨y, ey, hy⟩ := (CowBook.restoreCow_sealed hchunk' crc32c
      (Book.image_plain hb hrep hfl hgroups)).2 (hcap ▸ hlt) x ex
    rw [← hcap] at hy hx
    refine .inr ⟨y, ey, fun post b' hpost hrun' => ?_⟩
    obtain ⟨x', f', erun, hx', hb', hn'⟩ := shows_run hg hlt hb hx hgrid hnarrow
      ⟨q, fl, hrep, hfl, hle⟩ hpost hrun'
    obtain ⟨y', ey', hy'⟩ := (CowBook.run_tracks post).back hlt hy erun
    obtain ⟨hbid, hask⟩ := bests_same hx' hb'
    refine ⟨y', ey', hy'.bestBid.trans hbid, hy'.bestAsk.trans hask, fun side t => ?_,
      hy'.encodeRoot_same hx' hb' hn' crc32c⟩
    rw [hy'.level]
    exact levelAt_same hx' hb' side t
  · exact .inl (restoreCow_refuses hchunk' (by rw [run_pool hrun]; exact hu) henc)

section

variable {x : Book}

/-- Searching empty asks for one more level than there are runs out of the lane. -/
theorem Book.scanAsks_stops {t n : Nat} (hempty : ∀ u : Nat, ∀ l, (x.lane 1)[u]? = some l → l.head = NIL)
    (hlong : (x.lane 1).size < t + n) (ht : t ≤ (x.lane 1).size) :
    Book.scanAsks t n x = .error .indexOutOfBounds x := by
  induction n generalizing t with
  | zero => omega
  | succ n ih =>
    by_cases hlt : t < (x.lane 1).size
    · have hl := Array.getElem?_eq_getElem hlt
      have e : Book.level 1 t x = .ok (x.lane 1)[t] x := by simp only [Book.level, hl]
      rw [Book.scanAsks, bind_ok e, ite_run, if_neg (not_not.mpr (hempty t _ hl))]
      exact ih (by omega) (by omega)
    · have e : Book.level 1 t x = .error .indexOutOfBounds x := by
        simp only [Book.level, Array.getElem?_eq_none (Nat.le_of_not_lt hlt)]
      rw [Book.scanAsks, bind_error e]

/-- The first order of a book, an ask at the bottom of the ladder. -/
def Book.firstAsk (x : Book) : Order := ⟨1, x.priceMin, 1, 0, NIL, NIL, 1⟩

def Book.withAsk (x : Book) : Book :=
  { x with
    hwm := 1
    pool := x.pool.setIfInBounds 0 x.firstAsk
    asks := x.asks.setIfInBounds 0 ⟨0, 0, 1, 1⟩
    idmap := x.idmap.insert 1 0
    bestAsk := 0 }

theorem Book.tickOf_bottom (htick : 0 < x.tick) :
    Book.tickOf x.priceMin x = .ok 0 x := by
  have h0 : i64 (x.priceMin - x.priceMin) = 0 := by
    rw [Int.sub_self]
    rfl
  simp only [Book.tickOf, get_bind, gridTick, ite_run, h0]
  rw [if_neg (by omega), if_neg (by omega), Int.zero_tdiv]
  rfl

theorem Book.first_ask (htick : 0 < x.tick) (hfree : x.freeHead = NIL) (hhwm : x.hwm = 0)
    (hpool : 0 < x.pool.size) (hask : x.asks[0]? = some PriceLevel.EMPTY) (hbest : x.bestAsk = -1) :
    Book.insert 1 x.priceMin 1 1 x = .ok () x.withAsk := by
  have halloc : Book.allocSlot x = .ok 0 { x with hwm := 1 } := by
    simp only [Book.allocSlot, get_bind, ite_run]
    rw [if_neg (not_not.mpr hfree), if_neg (by omega), modify_bind, hhwm]
    rfl
  have hasks : 0 < x.asks.size := (Array.getElem?_eq_some_iff.mp hask).1
  have hlevel : ∀ b : Book, b.asks = x.asks → Book.level 1 0 b = .ok PriceLevel.EMPTY b := by
    intro b hb
    simp only [Book.level, Book.lane, one_ne_zero, if_false, hb, hask]
  have hset : ∀ o : Order, Book.setOrder 0 o { x with hwm := 1 } =
      .ok () { x with hwm := 1, pool := x.pool.setIfInBounds 0 o } := by
    intro o
    simp only [Book.setOrder, hpool, if_true]
  have hsetLevel : ∀ (b : Book) (l : PriceLevel), b.asks = x.asks →
      Book.setLevel 1 0 l b = .ok () { b with asks := x.asks.setIfInBounds 0 l } := by
    intro b l hb
    simp only [Book.setLevel, Book.lane, one_ne_zero, if_false, hb, hasks, if_true]
  unfold Book.insert
  refine bind_eq_ok.mpr ⟨_, _, Book.tickOf_bottom htick, bind_eq_ok.mpr ⟨_, _, halloc, ?_⟩⟩
  refine bind_eq_ok.mpr ⟨_, _, hlevel _ rfl, bind_eq_ok.mpr ⟨_, _, hset _, ?_⟩⟩
  refine bind_eq_ok.mpr ⟨_, _, hlevel _ rfl, bind_eq_ok.mpr ⟨_, _, hsetLevel _ _ rfl, ?_⟩⟩
  dsimp only
  rw [ite_run, if_neg (not_not.mpr (show PriceLevel.EMPTY.tail = NIL from rfl)), modify_bind]
  simp only [Book.noteBest, modify_bind, modify_run, Book.withAsk, hbest]
  rfl

theorem Book.order_withAsk (hpool : 0 < x.pool.size) {b : Book} (hb : b.pool = x.withAsk.pool) :
    Book.order 0 b = .ok x.firstAsk b := by
  have : b.pool[0]? = some x.firstAsk := by
    rw [hb]
    simp [Book.withAsk, hpool]
  simp only [Book.order, this]

theorem Book.unlink_ask (hpool : 0 < x.pool.size) (hpos : 0 < x.asks.size) {b : Book}
    (hp : b.pool = x.withAsk.pool) (ha : b.asks = x.withAsk.asks) :
    Book.unlink 0 1 0 1 b = .ok () { b with asks := b.asks.setIfInBounds 0 ⟨NIL, NIL, 0, 0⟩ } := by
  have hlane : b.lane 1 = x.withAsk.asks := (if_neg one_ne_zero).trans ha
  have hlevel : Book.level 1 0 b = .ok ⟨0, 0, 1, 1⟩ b := by
    have : (b.lane 1)[0]? = some ⟨0, 0, 1, 1⟩ := by
      rw [hlane]
      simp [Book.withAsk, hpos]
    simp only [Book.level, this]
  have hset : ∀ l, Book.setLevel 1 0 l b = .ok () { b with asks := b.asks.setIfInBounds 0 l } := by
    intro l
    have : 0 < (b.lane 1).size := by
      rw [hlane]
      simpa [Book.withAsk] using hpos
    simp only [Book.setLevel, this, if_true, one_ne_zero, if_false]
  refine bind_eq_ok.mpr ⟨_, _, Book.order_withAsk hpool hp, ?_⟩
  dsimp only
  rw [Book.firstAsk, ite_run, if_neg (not_not.mpr rfl), ite_run, if_neg (not_not.mpr rfl)]
  exact bind_eq_ok.mpr ⟨_, _, hlevel, hset _⟩

theorem Book.freeSlot_ask (hpool : 0 < x.pool.size) {b : Book} (hp : b.pool = x.withAsk.pool) :
    ∃ b', Book.freeSlot 0 b = .ok () b' ∧ b'.asks = b.asks ∧ b'.bestAsk = b.bestAsk ∧
      b'.nLevels = b.nLevels := by
  have hlt : 0 < b.pool.size := by
    rw [hp]
    simpa [Book.withAsk] using hpool
  have hset : ∀ o, Book.setOrder 0 o b = .ok () { b with pool := b.pool.setIfInBounds 0 o } := by
    intro o
    simp only [Book.setOrder, hlt, if_true]
  refine ⟨{ b with
    pool := b.pool.setIfInBounds 0 { x.firstAsk with orderId := 0, next := b.freeHead, prev := NIL }
    freeHead := 0 }, ?_, rfl, rfl, rfl⟩
  refine bind_eq_ok.mpr ⟨_, _, get_run, bind_eq_ok.mpr ⟨_, _, Book.order_withAsk hpool hp, ?_⟩⟩
  exact bind_eq_ok.mpr ⟨_, _, hset _, modify_run _⟩

/-- With the best ask gone, the search for the next one leaves the lane. -/
theorem Book.repairBest_stops {b : Book} (hbest : b.bestAsk = 0) (hpos : 0 < (b.lane 1).size)
    (hempty : ∀ u : Nat, ∀ l, (b.lane 1)[u]? = some l → l.head = NIL)
    (hlong : (b.lane 1).size < b.nLevels) : ∃ p b', Book.repairBest 1 0 b = .error p b' := by
  have hl : (b.lane 1)[0]? = some (b.lane 1)[0] := Array.getElem?_eq_getElem hpos
  have e : Book.level 1 0 b = .ok (b.lane 1)[0] b := by simp only [Book.level, hl]
  have hbest' : b.bestAsk = i32 (0 : Nat) := hbest
  refine ⟨.indexOutOfBounds, b, ?_⟩
  simp only [Book.repairBest, get_bind, ite_run]
  rw [if_neg one_ne_zero, if_neg (not_not.mpr hbest'), bind_ok e, ite_run,
    if_neg (not_not.mpr (hempty 0 _ hl))]
  exact bind_error (Book.scanAsks_stops hempty (by omega) (Nat.zero_le _)) _

/-- So taking that ask out again stops a book whose lane is shorter than its ladder. -/
theorem Book.cancel_ask_stops (htick : 0 < x.tick) (hpool : 0 < x.pool.size)
    (hempty : ∀ u : Nat, ∀ l, x.asks[u]? = some l → l.head = NIL) (hpos : 0 < x.asks.size)
    (hlong : x.asks.size < x.nLevels) : ∃ p b, Book.cancel 1 x.withAsk = .error p b := by
  have hremove : Book.removeId 1 "cancel: unknown order id" x.withAsk =
      .ok 0 { x.withAsk with idmap := x.withAsk.idmap.remove 1 } := by
    simp [Book.removeId, Book.withAsk, IdMap.insert]
  have horder := @Book.order_withAsk x hpool
    { x.withAsk with idmap := x.withAsk.idmap.remove 1 } rfl
  have htickOf := @Book.tickOf_bottom { x.withAsk with idmap := x.withAsk.idmap.remove 1 } htick
  have hunlink := @Book.unlink_ask x hpool hpos
    { x.withAsk with idmap := x.withAsk.idmap.remove 1 } rfl rfl
  obtain ⟨b, e, hasks, hbest, hn⟩ := @Book.freeSlot_ask x hpool
    { x.withAsk with
      idmap := x.withAsk.idmap.remove 1
      asks := x.withAsk.asks.setIfInBounds 0 ⟨NIL, NIL, 0, 0⟩ } rfl
  have hlane : b.lane 1 = x.withAsk.asks.setIfInBounds 0 ⟨NIL, NIL, 0, 0⟩ :=
    (if_neg one_ne_zero).trans hasks
  have hsize : (b.lane 1).size = x.asks.size := by
    rw [hlane]
    simp [Book.withAsk]
  have hend : ∀ u : Nat, ∀ l, (b.lane 1)[u]? = some l → l.head = NIL := by
    intro u l hl
    rw [hlane] at hl
    simp only [Book.withAsk, Array.getElem?_setIfInBounds] at hl
    by_cases h0 : 0 = u
    · rw [if_pos h0, if_pos (by simpa using hpos)] at hl
      rw [← Option.some.inj hl]
    · rw [if_neg h0, if_neg h0] at hl
      exact hempty u l hl
  obtain ⟨p, b', e'⟩ := Book.repairBest_stops hbest (hsize ▸ hpos) hend (by rw [hsize, hn]; exact hlong)
  refine ⟨p, b', ?_⟩
  unfold Book.cancel
  rw [bind_ok hremove, bind_ok horder]
  refine (bind_ok htickOf _).trans ((bind_ok hunlink _).trans ((bind_ok e _).trans e'))

end

/-- An empty book restored under a configuration that its image cannot tell from its own. -/
theorem restored_new (hg : c₁.grid.Ok) (hu : u32 c₁.cap = c₂.cap) (crc32c : List UInt8 → UInt32)
    {buf : List UInt8} (hbuf : (Book.new c₁).source.room ≤ buf.length) :
    ∃ data len x, (Book.new c₁).encode crc32c buf = .ok (data, len) ∧
      data.take len = Encoder.sealed crc32c (Book.new c₁).source.image ∧
      (Book.new c₁).source.image.Plain ∧
      Book.restore crc32c (data.take len) c₂ = .ok x ∧ x.view = (Book.new c₁).view ∧
      x.pool.size = c₂.cap ∧ x.bids.size = c₂.levels ∧ x.asks.size = c₂.levels := by
  have hb := Book.new_shows c₁
  obtain ⟨q, fl, hrep, hfl, hle⟩ := Book.new_holds hg
  have hgroups := Book.noEmptyGroup hb hrep (Nat.zero_le _)
  have hlevels : (Book.new c₁).source.levelRecs = [] :=
    List.eq_nil_of_length_eq_zero (Nat.le_zero.mp (Book.levelRecs_length_le hb hrep))
  have horders : (Book.new c₁).source.image.orders = [] := rfl
  obtain ⟨data, e, hdata⟩ :=
    Encoder.encode_ok crc32c (Book.source_readable hb hrep hle) hgroups hbuf
  have hrest := @Book.restore_sealed _ _ _ _ _ c₂ crc32c hb hrep fl hfl hle hgroups fun _ => by
    refine ⟨fun r hr => ?_, fun r hr => ?_⟩
    · have := mem_of_mem_kept hr
      rw [hlevels] at this
      cases this
    · rw [horders] at hr
      cases hr
  rw [if_pos hu] at hrest
  obtain ⟨x, ex, hx⟩ := hrest
  have hview := hx.view_eq hb hrep (fun r hr => by rw [hlevels] at hr; cases hr)
    fun s _ => hfl.fresh s (Nat.zero_le s)
  refine ⟨data, _, x, e, hdata, Book.image_plain hb hrep hfl hgroups, by rw [hdata, ex], hview,
    hx.pool_size.trans Book.blankOf_pool_size, ?_, ?_⟩
  · exact (hx.lanes 0 (by omega)).trans (Book.blankOf_lane_size 0)
  · exact (hx.lanes 1 (by omega)).trans (Book.blankOf_lane_size 1)

/-- An ask comes to the bottom of the ladder and is taken out again. -/
def askAndCancel (cfg : SmrConfig) : List Op := [.insert 1 cfg.priceMin 1 1, .cancel 1]

theorem askAndCancel_wellFormed (hg : c₁.grid.Ok) (hcap : 1 ≤ c₁.cap) :
    WellFormed c₁ [] (askAndCancel c₁) := by
  refine ⟨⟨⟨by decide, hg.priceMin_i64, by decide⟩, by decide, by simp [Ledger.ids],
    ⟨0, hg.levels_pos, by simp⟩, by decide, by decide, hcap, by simp [Ledger.levelQty, Ledger.atLevel]⟩,
    ?_, trivial⟩
  change (1 : Int) ∈ [(1 : Int)]
  simp

theorem askAndCancel_fits (cfg : SmrConfig) : Fits cfg [] (askAndCancel cfg) := by
  refine ⟨⟨?_, by decide⟩, trivial, trivial⟩
  rw [Int.sub_self]
  decide

section

variable {x : Book} (hg : c₁.grid.Ok) (hv : x.view = (Book.new c₁).view)
  (hgo : ∀ post b', WellFormed c₁ [] post → Book.run post (Book.new c₁) = .ok () b' →
    ∃ x', Book.run post x = .ok () x')

include hg hv hgo

/-- An empty book that completes what a new one completes has a lane for its whole ladder. -/
theorem levels_le_of_runs (hcap : 1 ≤ c₁.cap) (hpool : 0 < x.pool.size) (hpos : 0 < x.asks.size) :
    c₁.levels ≤ x.asks.size := by
  by_contra hlt
  have hlane : ∀ u : Nat, ∀ l, x.asks[u]? = some l → l = PriceLevel.EMPTY := by
    intro u l hl
    have e : x.view.lvl .ask u = (Book.new c₁).view.lvl .ask u := by rw [hv]
    simp only [Book.view, hl, Option.getD_some, Book.new, Array.getElem?_replicate] at e
    rw [e]
    split <;> rfl
  have hn : x.nLevels = c₁.levels := congrArg (fun f : Flat => f.grid.nLevels) hv
  have hpm : x.priceMin = c₁.priceMin := congrArg (fun f : Flat => f.grid.priceMin) hv
  have htick : 0 < x.tick := by
    rw [show x.tick = c₁.tick from congrArg (fun f : Flat => f.grid.tick) hv]
    exact hg.tick_pos
  have hwf := askAndCancel_wellFormed hg hcap
  obtain ⟨b', e, -⟩ := (Book.run_holds hg rfl (Book.new_holds hg) hwf (askAndCancel_fits c₁)).1 _
    (Book.new_shows c₁)
  obtain ⟨x', ex⟩ := hgo _ b' hwf e
  obtain ⟨x₁, e₁, e₂⟩ := runAll_cons_eq_ok.mp ex
  obtain ⟨x₂, e₂, -⟩ := runAll_cons_eq_ok.mp e₂
  have hget := Array.getElem?_eq_getElem hpos
  rw [hlane 0 _ hget] at hget
  have hfirst := Book.first_ask htick (congrArg Flat.freeHead hv) (congrArg Flat.hwm hv) hpool hget
    (congrArg Flat.bestAsk hv)
  rw [hpm] at hfirst
  rw [Book.apply, hfirst] at e₁
  cases e₁
  obtain ⟨p, b'', e₃⟩ := Book.cancel_ask_stops htick hpool (fun u l hl => by rw [hlane u l hl]; rfl)
    hpos (by omega)
  rw [Book.apply, e₃] at e₂
  cases e₂

/-- One that has the lanes has no smaller pool either, if its pool fits slot numbers. -/
theorem cap_lt_of_runs (hbids : c₁.levels ≤ x.bids.size) (hasks : c₁.levels ≤ x.asks.size)
    (hpool : x.pool.size ≤ NIL) : ¬ NIL < c₁.cap := by
  intro hbig
  set n := x.pool.size with hn
  have hwf : WellFormed c₁ [] (bidsAt c₁.priceMin (n + 1)) :=
    bidsAt_wellFormed hg (by omega) (by simp only [NIL] at hpool; omega)
  have hready : ∀ cap, n ≤ cap → Ready cap c₁.grid [] (bidsAt c₁.priceMin n) := fun cap hcap => by
    have hwf' : WellFormed { c₁ with cap } [] (bidsAt c₁.priceMin n) :=
      @bidsAt_wellFormed { c₁ with cap } hg n hcap (hpool.trans (by decide))
    exact @WellFormed.ready { c₁ with cap } hg _ _ hwf' (@bidsAt_fits { c₁ with cap } n hpool)
  have hholds : ∀ cap, (Book.new c₁).view.Holds cap [] := by
    intro cap
    obtain ⟨q, fl, hrep, hfl, -⟩ := Book.new_holds hg
    exact ⟨q, fl, hrep, hfl, Nat.zero_le _⟩
  obtain ⟨hrunx, ⟨q, fl, hrep, hfl, hle⟩, hgrid⟩ :=
    Book.run_ready rfl (hholds n) (hready n (Nat.le_refl n))
  obtain ⟨hrunb, -, -⟩ := Book.run_ready rfl (hholds c₁.cap) (hready c₁.cap (by omega))
  set f := (Book.new c₁).view.steps (bidsAt c₁.priceMin n)
  clear_value f
  have hcount := hfl.count
  rw [after_bidsAt_length] at hcount
  have hfull : f.hwm = n := by omega
  have hfree : f.freeHead = NIL :=
    hfl.chain.eq_nil_iff.mpr (List.eq_nil_of_length_eq_zero (by omega))
  have hlast : Exec.Runs (Book.Shows c₁.cap) (Book.insert (n + 1) c₁.priceMin 1 0) f ()
      (f.insert ⟨n + 1, c₁.priceMin, 1, 0, 0⟩) := by
    have hbottom : f.grid.tickOf c₁.priceMin = 0 := by
      rw [hgrid]
      refine Grid.tickOf_onGrid hg hg.levels_pos (by simp [SmrConfig.grid]) ?_
      change InI64 (c₁.priceMin - c₁.priceMin)
      rw [Int.sub_self]
      decide
    refine Book.insert_runs_of hrep.grid_ok ?_ (fun h => absurd hfree h) (fun _ => by omega) ?_
      fun y t ht => Nat.lt_of_lt_of_le (hrep.tail_lt ht) (by omega)
    · rw [hbottom, hgrid]
      exact hg.levels_pos
    · rw [Flat.nextSlot, if_neg (not_not.mpr hfree)]
      omega
  obtain ⟨b₁, eb, hb₁⟩ := hrunb _ (Book.new_shows c₁)
  obtain ⟨b₂, eb₂, -⟩ := hlast b₁ hb₁
  have hrun : Book.run (bidsAt c₁.priceMin (n + 1)) (Book.new c₁) = .ok () b₂ := by
    rw [bidsAt_succ]
    exact runAll_append_eq_ok.mpr ⟨b₁, eb, runAll_cons_eq_ok.mpr ⟨b₂, eb₂, rfl⟩⟩
  -- the restored book completes the first `n` of them and has then no slot left
  have hlevels : x.nLevels = c₁.levels := congrArg (fun f : Flat => f.grid.nLevels) hv
  obtain ⟨x₁, ex, hx₁⟩ := hrunx x ⟨hv, hn.symm, hlevels ▸ hbids, hlevels ▸ hasks⟩
  obtain ⟨x', ex'⟩ := hgo _ b₂ hwf hrun
  rw [bidsAt_succ] at ex'
  obtain ⟨x₁', ex₁, ex₂⟩ := runAll_append_eq_ok.mp ex'
  rw [show runAll Book.apply (bidsAt c₁.priceMin n) x = .ok () x₁ from ex] at ex₁
  cases ex₁
  obtain ⟨x₂, ex₂, -⟩ := runAll_cons_eq_ok.mp ex₂
  have htick : 0 < x₁.tick := by
    rw [show x₁.tick = f.grid.tick by rw [← hx₁.view]; rfl, hgrid]
    exact hg.tick_pos
  obtain ⟨p, b'', e⟩ := @Book.insert_exhausted x₁ htick (by rw [← hfree, ← hx₁.view]; rfl)
    (by rw [hx₁.pool, ← hfull, ← hx₁.view]; rfl) (n + 1) c₁.priceMin 1 0
  rw [Book.apply, e] at ex₂
  cases ex₂

/-- So a restored empty book that completes what the encoded one completes has
pools and lanes that fit. -/
theorem fitsInto_of_runs (h₂ : c₂.Accepted) (hu : u32 c₁.cap = c₂.cap) (hp : x.pool.size = c₂.cap)
    (hbids : x.bids.size = c₂.levels) (hasks : x.asks.size = c₂.levels) : c₁.FitsInto c₂ := by
  have hcap : 1 ≤ c₁.cap := by
    refine Nat.pos_of_ne_zero fun h0 => ?_
    have := h₂.cap_pos
    rw [← hu, h0] at this
    exact absurd this (by decide)
  have hlt := u32_lt c₁.cap
  have hlevels := levels_le_of_runs hg hv hgo hcap (by rw [hp]; exact h₂.cap_pos)
    (by rw [hasks]; exact h₂.levels_pos)
  rw [hasks] at hlevels
  refine .inr ⟨?_, hlevels⟩
  have hle := cap_lt_of_runs hg hv hgo (by rw [hbids]; exact hlevels) (by rw [hasks]; exact hlevels)
    (by simp only [NIL]; omega)
  rw [← hu, u32_eq_self (by simp only [NIL] at hle; omega)]

end

theorem CowCall.ops_map (post : List Op) : CowCall.ops (post.map .op) = post := by
  induction post with
  | nil => rfl
  | cons o post ih => exact congrArg (o :: ·) ih

/-- When an image restores under another configuration: exactly when the decoder
sees that the capacities differ, or the capacities are equal and the other
configuration has at least as many levels. This is so of both books. -/
theorem restores_under_iff (hg : c₁.grid.Ok) (hchunk : 1 ≤ c₁.chunk) (h₂ : c₂.Accepted)
    (crc32c : List UInt8 → UInt32) :
    (RestoresUnder crc32c c₁ c₂ ↔ c₁.FitsInto c₂) ∧
      (RestoresCowUnder crc32c c₁ c₂ ↔ c₁.FitsInto c₂) := by
  have hbuf : (Book.new c₁).source.room ≤
      (List.replicate (Book.new c₁).source.room (0 : UInt8)).length :=
    Nat.le_of_eq List.length_replicate.symm
  refine ⟨⟨fun h => ?_, fun h => h.restores hg⟩,
    ⟨fun h => ?_, fun h => h.restoresCow hg hchunk h₂.chunk_pos⟩⟩
  · by_cases hu : u32 c₁.cap = c₂.cap
    · obtain ⟨data, len, x, e, -, -, ex, hv, hp, hbids, hasks⟩ := restored_new hg hu crc32c hbuf
      obtain ⟨text, e'⟩ | ⟨x', ex', hgo⟩ :=
        h [] _ trivial (Book.run_nil _) (Nat.zero_le _) _ data len hbuf e
      · rw [ex] at e'
        cases e'
      · rw [ex] at ex'
        cases ex'
        refine fitsInto_of_runs hg hv (fun post b' hwf hrun => ?_) h₂ hu hp hbids hasks
        obtain ⟨x', erun, -⟩ := hgo post b' hwf hrun
        exact ⟨x', erun⟩
    · exact .inl hu
  · by_cases hu : u32 c₁.cap = c₂.cap
    · obtain ⟨data, len, x, e, hseal, hplain, ex, hv, hp, hbids, hasks⟩ := restored_new hg hu crc32c hbuf
      obtain ⟨w₀, e₀, h₀⟩ := CowBook.new_mirrors hchunk
      have himage := h₀.encodeRoot (Book.new_narrow c₁) (fun _ _ => rfl) (fun _ _ _ => rfl) crc32c
        (List.replicate (Book.new c₁).source.room 0)
      obtain ⟨text, e'⟩ | ⟨y, ey, hgo⟩ := h [] _ w₀ w₀ w₀.root _ trivial (Book.run_nil _)
        (Nat.zero_le _) e₀ rfl rfl _ data len hbuf (himage.trans e)
      · rw [hseal] at ex e'
        have hlt : c₂.cap < 4294967296 := hu ▸ u32_lt _
        obtain ⟨y, ey, -⟩ := (CowBook.restoreCow_sealed h₂.chunk_pos crc32c hplain).2 hlt x ex
        rw [ey] at e'
        cases e'
      · rw [hseal] at ex ey
        obtain ⟨x', ex', hy⟩ := (CowBook.restoreCow_sealed h₂.chunk_pos crc32c hplain).1 y ey
        rw [ex] at ex'
        cases ex'
        refine fitsInto_of_runs hg hv (fun post b' hwf hrun => ?_) h₂ hu hp hbids hasks
        obtain ⟨y', erun, -⟩ := hgo (post.map .op) b' (by rw [CowCall.ops_map]; exact hwf)
          (by rw [CowCall.ops_map]; exact hrun)
        obtain ⟨x', erun', -⟩ := (CowBook.run_tracks (post.map .op)).forth hy erun
        rw [CowCall.ops_map] at erun'
        exact ⟨x', erun'⟩
    · exact .inl hu

theorem smallBook_accepted : smallBook.Accepted := by
  constructor <;> decide

theorem restores_under_iff_smallBook :
    RestoresUnder (fun _ => 0) smallBook { smallBook with levels := 9 } ∧
      RestoresCowUnder (fun _ => 0) smallBook { smallBook with levels := 9 } := by
  have h₂ : ({ smallBook with levels := 9 } : SmrConfig).Accepted := by constructor <;> decide
  obtain ⟨h, hcow⟩ := restores_under_iff smallBook_ok (by decide) h₂ fun _ => 0
  exact ⟨h.mpr (.inr (by decide)), hcow.mpr (.inr (by decide))⟩

/-- A configuration with fewer levels and the same pool. -/
def lowLadder : SmrConfig := { smallBook with levels := 4 }

/-- One ask rests at the bottom of eight levels. The image restores under four,
and taking the ask out stops the restored book. -/
theorem restored_stops_lowLadder :
    lowLadder.Accepted ∧ WellFormed smallBook [] [.insert 1 (-10) 1 1] ∧
      WellFormed smallBook (Ledger.after [] [.insert 1 (-10) 1 1]) [.cancel 1] ∧
      ∃ b data len x, Book.run [.insert 1 (-10) 1 1] (Book.new smallBook) = .ok () b ∧
        b.encode (fun _ => 0) (List.replicate 200 0) = .ok (data, len) ∧
        Book.restore (fun _ => 0) (data.take len) lowLadder = .ok x ∧
        (∃ b', Book.run [.cancel 1] b = .ok () b') ∧
        ∃ x', Book.run [.cancel 1] x = .error .indexOutOfBounds x' := by
  refine ⟨by constructor <;> decide, by decide, by decide, ?_⟩
  have hrun : ((Book.run [.insert 1 (-10) 1 1] (Book.new smallBook)).casesOn
      (fun _ b => (b.encode (fun _ => 0) (List.replicate 200 0)).casesOn (fun _ => false) fun r =>
        (Book.restore (fun _ => 0) (r.1.take r.2) lowLadder).casesOn (fun _ => false) fun x =>
          (Book.run [.cancel 1] b).casesOn
            (fun _ _ => (Book.run [.cancel 1] x).casesOn (fun _ _ => false)
              fun p _ => decide (p = .indexOutOfBounds))
            fun _ _ => false)
      fun _ _ => false : Bool) = true := by decide +kernel
  cases e₁ : Book.run [.insert 1 (-10) 1 1] (Book.new smallBook) with
  | error p b => rw [e₁] at hrun; cases hrun
  | ok _ b =>
    rw [e₁] at hrun
    dsimp only at hrun
    cases e₂ : b.encode (fun _ => 0) (List.replicate 200 0) with
    | error p => rw [e₂] at hrun; cases hrun
    | ok r =>
      obtain ⟨data, len⟩ := r
      rw [e₂] at hrun
      dsimp only at hrun
      cases e₃ : Book.restore (fun _ => 0) (data.take len) lowLadder with
      | error p => rw [e₃] at hrun; cases hrun
      | ok x =>
        rw [e₃] at hrun
        dsimp only at hrun
        cases e₄ : Book.run [.cancel 1] b with
        | error p b' => rw [e₄] at hrun; cases hrun
        | ok _ b' =>
          cases e₅ : Book.run [.cancel 1] x with
          | ok _ x' => rw [e₄, e₅] at hrun; cases hrun
          | error p x' =>
            rw [e₄, e₅] at hrun
            exact ⟨b, data, len, x, rfl, e₂, e₃, ⟨b', e₄⟩, x', by rw [e₅, of_decide_eq_true hrun]⟩

end HiPerf
