import HiPerf.Snapshot.CowImage
import HiPerf.Snapshot.RestoreCow

/-!
Restarting from an image: as long as the image holds every slot in use, the
restored book is the book that was encoded, and goes on as that book would.
-/

namespace HiPerf

open Machine Exec Bytes

namespace Book

variable {cfg : SmrConfig} {cap : Nat} {b x : Book} {f : Flat} {L : Ledger}
  {q : Lane → Nat → List Nat}

theorem hwm_source (hb : b.Shows cap f) : b.source.scalars.hwm = f.hwm := by
  rw [← hb.view]; rfl

/-- An image that holds every slot in use has no empty group to stop at. -/
theorem noEmptyGroup (hb : b.Shows cap f) (h : Rep f L q) (hhwm : f.hwm ≤ 65535) :
    Encoder.NoEmptyGroup b.source := by
  have hlen := levelRecs_length_le hb h
  have e := hwm_source hb
  have hu : ∀ n, n ≤ 65535 → u16 n = n := fun n hn => Nat.mod_eq_of_lt (by omega)
  refine ⟨fun hne => ?_, fun hne => ?_⟩
  · rw [hu _ (by omega)]
    exact fun h0 => hne (List.eq_nil_of_length_eq_zero h0)
  · rw [hu _ (by omega)]
    exact hne

/-- The blocks of such an image are all the levels and slots there are. -/
theorem image_whole (hb : b.Shows cap f) (h : Rep f L q) (hhwm : f.hwm ≤ 65535) :
    b.source.image.levels = b.source.levelRecs ∧
      b.source.image.orders = b.source.orderRecs 0 f.hwm := by
  have hlen := levelRecs_length_le hb h
  have hu : ∀ n, n ≤ 65535 → u16 n = n := fun n hn => Nat.mod_eq_of_lt (by omega)
  constructor
  · exact kept_of_le (Nat.le_of_eq (hu _ (by omega)).symm)
  · simp only [Source.image, hwm_source hb]
    refine kept_of_le ?_
    rw [hu _ hhwm]
    simp [Source.orderRecs]

/-- A book with every occupied level and every slot that is not blank taken from
`b` shows what `b` shows. -/
theorem Patched.view_eq {ls : List (Nat × Nat)} {ss : List Nat}
    (hx : Patched b (blankOf cfg b) x ls ss) (hb : b.Shows cap f) (h : Rep f L q)
    (hls : ∀ r ∈ b.source.levelRecs, LevelRec.key r ∈ ls) (hss : ∀ s ∉ ss, f.ord s = Order.zero) :
    x.view = f := by
  have hlane : ∀ side ≤ 1, ∀ t : Nat, (x.lane side)[t]?.getD PriceLevel.EMPTY =
      (b.lane side)[t]?.getD PriceLevel.EMPTY := by
    intro side hs t
    rw [hx.level side hs t]
    split
    · rfl
    · rename_i hnot
      have hz : ((blankOf cfg b).lane side)[t]?.getD PriceLevel.EMPTY = PriceLevel.EMPTY := by
        rw [blankOf_lane]
        split <;> rfl
      rw [hz]
      cases e : (b.lane side)[t]? with
      | none => rfl
      | some l =>
        have el := source_level hb e
        have hnil : l.head = NIL := by
          by_contra hne
          exact hnot (hls _ (levelRecs_mem hs e hne))
        rw [el] at hnil
        rw [Option.getD_some, el, h.level_eq_empty_of_head hnil]
  have hpool : ∀ s : Nat, x.pool[s]?.getD Order.zero = b.pool[s]?.getD Order.zero := by
    intro s
    rw [hx.pool s]
    split
    · rfl
    · rename_i hnot
      have hz : (blankOf cfg b).pool[s]?.getD Order.zero = Order.zero := by
        rw [blankOf_pool]
        split <;> rfl
      have hord : b.pool[s]?.getD Order.zero = f.ord s := by rw [← hb.view]; rfl
      rw [hz, hord, hss s hnot]
  have hids : x.idmap = b.idmap := by
    funext k
    have hf : b.idmap k = f.ids k := by rw [← hb.view]; rfl
    rw [hx.ids k]
    split
    · rfl
    · rename_i hnot
      have hnew : (blankOf cfg b).idmap k = none := rfl
      rw [hnew, hf]
      cases e : f.ids k with
      | none => rfl
      | some s =>
        exfalso
        obtain ⟨hq, rfl⟩ := (h.ids k s).mp e
        have hne := h.queued_id_ne hq
        have hs : s ∈ ss := by
          by_contra hs
          rw [hss s hs] at hne
          exact hne rfl
        refine hnot ⟨hne, s, hs, ?_⟩
        rw [← hb.view] at hne ⊢
        simp only [view] at hne ⊢
        cases ho : b.pool[s]? with
        | none =>
          rw [ho] at hne
          exact absurd rfl hne
        | some o => rfl
  have hbids := hlane 0 (by omega)
  have hasks := hlane 1 (by omega)
  simp only [lane, if_true, one_ne_zero, if_false] at hbids hasks
  rw [← hb.view]
  simp only [view, Flat.mk.injEq, Grid.mk.injEq]
  refine ⟨⟨hx.priceMin, hx.tick, hx.nLevels⟩, funext hpool, ?_, hx.hwm, hx.freeHead, hx.bestBid,
    hx.bestAsk, hids⟩
  funext y t
  cases y with
  | bid => exact hbids t
  | ask => exact hasks t

/-- Books of one size that show the same are the same. -/
theorem eq_of_view (hv : x.view = b.view) (hp : x.pool.size = b.pool.size)
    (hb : x.bids.size = b.bids.size) (ha : x.asks.size = b.asks.size) : x = b := by
  have hext : ∀ {α : Type} {d : α} {u v : Array α}, u.size = v.size →
      (∀ i : Nat, u[i]?.getD d = v[i]?.getD d) → u = v := by
    intro α d u v hs h
    refine Array.ext hs fun i hi hi' => ?_
    have := h i
    rwa [Array.getElem?_eq_getElem hi, Array.getElem?_eq_getElem hi'] at this
  simp only [view, Flat.mk.injEq, Grid.mk.injEq] at hv
  obtain ⟨⟨h₁, h₂, h₃⟩, hord, hlvl, h₄, h₅, h₆, h₇, h₈⟩ := hv
  have hpool := hext hp (congrFun hord)
  have hbids := hext hb (congrFun (congrFun hlvl .bid))
  have hasks := hext ha (congrFun (congrFun hlvl .ask))
  cases x
  cases b
  simp only [mk.injEq]
  exact ⟨h₁, h₂, h₃, hbids, hasks, hpool, h₄, h₆, h₇, h₈, h₅⟩

/-- Under a configuration with as many slots and at least as many levels, the
image of a book gives a book that shows the same. -/
theorem restore_encode (crc32c : List UInt8 → UInt32) (hb : b.Shows cfg.cap f) (h : Rep f L q)
    {fl : List Nat} (hfl : FreeList f L fl) (hcap : f.hwm ≤ cfg.cap)
    (hlevels : f.grid.nLevels ≤ cfg.levels) (hlt : cfg.cap < 4294967296) (hhwm : f.hwm ≤ 65535)
    {buf : List UInt8} (hbuf : b.source.room ≤ buf.length) :
    ∃ data len x, b.encode crc32c buf = .ok (data, len) ∧
      restore crc32c (data.take len) cfg = .ok x ∧ x.Shows cfg.cap f ∧
      x.bids.size = cfg.levels ∧ x.asks.size = cfg.levels := by
  have hg := noEmptyGroup hb h hhwm
  obtain ⟨hwl, hwo⟩ := image_whole hb h hhwm
  obtain ⟨data, e, hdata⟩ := Encoder.encode_ok crc32c (source_readable hb h hcap) hg hbuf
  have hrest := @restore_sealed _ _ _ _ _ cfg crc32c hb h _ hfl hcap hg fun _ => by
    refine ⟨fun r hr => ?_, fun r hr => ?_⟩
    · obtain ⟨-, hl, hn⟩ := mem_levelRecs (mem_of_mem_kept hr)
      exact Nat.lt_of_lt_of_le (h.occupied_lt (source_level hb hl ▸ hn)) hlevels
    · exact Nat.lt_of_lt_of_le (order_mem hb h hcap hr).1 hcap
  rw [if_pos (u32_eq_self hlt)] at hrest
  obtain ⟨x, ex, hx⟩ := hrest
  have hview := hx.view_eq hb h
    (fun r hr => by rw [hwl]; exact List.mem_map_of_mem hr)
    (fun s hs => hfl.fresh s <| Nat.le_of_not_lt fun hlt => hs <| by
      rw [hwo, Source.orderRecs, List.map_map]
      exact List.mem_map.mpr ⟨s, by simpa using hlt, rfl⟩)
  have hn : x.nLevels = f.grid.nLevels := by rw [← hview]; rfl
  have hbids : x.bids.size = cfg.levels := (hx.lanes 0 (by omega)).trans (blankOf_lane_size 0)
  have hasks : x.asks.size = cfg.levels := (hx.lanes 1 (by omega)).trans (blankOf_lane_size 1)
  refine ⟨data, _, x, e, by rw [hdata, ex], ⟨hview, hx.pool_size.trans blankOf_pool_size, ?_, ?_⟩,
    hbids, hasks⟩
  · rw [hn, hbids]; exact hlevels
  · rw [hn, hasks]; exact hlevels

end Book

/-- A book after the calls of a well-formed sequence that it completed. -/
theorem reached {cfg : SmrConfig} (hg : cfg.grid.Ok) {ops : List Op} {b : Book}
    (hwf : WellFormed cfg [] ops) (hslots : SlotsFit [] ops)
    (hrun : Book.run ops (Book.new cfg) = .ok () b) :
    ∃ f, b.Shows cfg.cap f ∧ f.Holds cfg.cap (Ledger.after [] ops) ∧ f.grid = cfg.grid ∧ b.Narrow := by
  have hready := Book.run_completes hg (Book.new_shows cfg) rfl (Book.new_narrow cfg)
    (Book.new_holds hg) hwf hslots hrun
  obtain ⟨hruns, hholds, hgrid⟩ := Book.run_ready rfl (Book.new_holds hg) hready
  obtain ⟨b', e, hb⟩ := hruns _ (Book.new_shows cfg)
  rw [hrun] at e
  cases e
  exact ⟨_, hb, hholds, hgrid, CowBook.run_narrow hrun⟩

/-- The book restored from the image of `b` under its own configuration is `b`. -/
theorem Book.restore_self {cfg : SmrConfig} (hg : cfg.grid.Ok) (hcap : cfg.cap < 4294967296)
    {ops : List Op} {b : Book} (hwf : WellFormed cfg [] ops)
    (hrun : Book.run ops (Book.new cfg) = .ok () b) (hhwm : b.hwm ≤ 65535)
    (crc32c : List UInt8 → UInt32) {buf : List UInt8} (hbuf : b.source.room ≤ buf.length) :
    ∃ data len, b.encode crc32c buf = .ok (data, len) ∧
      Book.restore crc32c (data.take len) cfg = .ok b := by
  obtain ⟨f, hb, ⟨q, fl, hrep, hfl, hle⟩, hgrid, hnarrow⟩ := reached hg hwf (hwf.slotsFit hcap) hrun
  have hn : f.grid.nLevels = cfg.levels := by rw [hgrid]; rfl
  have hnb : b.nLevels = f.grid.nLevels := by rw [← hb.view]; rfl
  obtain ⟨data, len, x, e, ex, hx, hbids, hasks⟩ := Book.restore_encode crc32c hb hrep hfl hle
    (Nat.le_of_eq hn) hcap (by rw [← hb.hwm_eq]; exact hhwm) hbuf
  have hself : x = b := by
    refine Book.eq_of_view (hx.view.trans hb.view.symm) (hx.pool.trans hb.pool.symm) ?_ ?_
    · rw [hbids, hnarrow.bids, hnb, hn]
    · rw [hasks, hnarrow.asks, hnb, hn]
  exact ⟨data, len, e, hself ▸ ex⟩

namespace CowBook

/-- Two copy-on-write books show the same, whatever their chunks. -/
structure Alike (y w : CowBook) : Prop where
  order : ∀ slot, y.order? slot = w.order? slot
  level : ∀ side t, y.level? side t = w.level? side t
  hwm : y.hwm = w.hwm
  freeHead : y.freeHead = w.freeHead
  bestBid : y.bestBid = w.bestBid
  bestAsk : y.bestAsk = w.bestAsk
  idmap : y.idmap = w.idmap

theorem Agrees.alike {y w : CowBook} {b : Book} (hy : y.Agrees b) (hw : w.Agrees b) : y.Alike w :=
  ⟨fun s => (hy.order s).trans (hw.order s).symm,
    fun side t => (hy.level side t).trans (hw.level side t).symm, hy.hwm.trans hw.hwm.symm,
    hy.freeHead.trans hw.freeHead.symm, hy.bestBid.trans hw.bestBid.symm,
    hy.bestAsk.trans hw.bestAsk.symm, hy.idmap.trans hw.idmap.symm⟩

end CowBook

/-- Snapshot, restore and replay. The restored flat book is the book that was
encoded. A restored copy-on-write book, of whatever chunk size, completes what
the other one completes, shows the same after every call and has the same
images, wherever either of them is captured. -/
theorem snapshot_restart {cfg : SmrConfig} (hg : cfg.grid.Ok) (hchunk : 1 ≤ cfg.chunk)
    (hcap : cfg.cap < 4294967296) {calls : List CowCall} {b : Book}
    (hwf : WellFormed cfg [] (CowCall.ops calls))
    (hrun : Book.run (CowCall.ops calls) (Book.new cfg) = .ok () b) (hhwm : b.hwm ≤ 65535)
    (crc32c : List UInt8 → UInt32) {buf : List UInt8} (hbuf : b.source.room ≤ buf.length) :
    ∃ data len, b.encode crc32c buf = .ok (data, len) ∧
      Book.restore crc32c (data.take len) cfg = .ok b ∧
      ∃ w₀ w r w', CowBook.new cfg = .ok w₀ ∧ CowBook.run calls w₀ = .ok () w ∧
        CowBook.capture w = .ok r w' ∧
        encodeRoot crc32c r (fun _ => w'.mem) buf = .ok (data, len) ∧
        ∀ chunk ≥ 1, ∃ y, restoreCow crc32c (data.take len) { cfg with chunk } = .ok y ∧
          ∀ post post', CowCall.ops post' = CowCall.ops post → ∀ w'',
            CowBook.run post w' = .ok () w'' →
            ∃ y'', CowBook.run post' y = .ok () y'' ∧ y''.Alike w'' ∧ ∀ buf',
              encodeRoot crc32c y''.root (fun _ => y''.mem) buf' =
                encodeRoot crc32c w''.root (fun _ => w''.mem) buf' := by
  obtain ⟨data, len, e, er⟩ := Book.restore_self hg hcap hwf hrun hhwm crc32c hbuf
  obtain ⟨w₀, e₀, h₀⟩ := CowBook.new_mirrors hchunk
  obtain ⟨w, ew, h⟩ := (CowBook.run_tracks calls).back hcap h₀ hrun
  have hnarrow := CowBook.run_narrow hrun
  have himage := h.encodeRoot hnarrow (fun _ _ => rfl) (fun _ _ _ => rfl) crc32c buf
  refine ⟨data, len, e, er, w₀, w, _, _, e₀, ew, rfl, himage.trans e, fun chunk hc => ?_⟩
  obtain ⟨f, hb, ⟨q, fl, hrep, hfl, hle⟩, hgrid, -⟩ := reached hg hwf (hwf.slotsFit hcap) hrun
  have hf : f.hwm ≤ 65535 := by rw [← hb.hwm_eq]; exact hhwm
  have hgroups := Book.noEmptyGroup hb hrep hf
  have hplain := Book.image_plain hb hrep hfl hgroups
  obtain ⟨data', e', hseal⟩ := Encoder.encode_ok crc32c (Book.source_readable hb hrep hle) hgroups hbuf
  rw [Book.encode] at e
  rw [e] at e'
  cases e'
  rw [hseal] at er ⊢
  obtain ⟨y, ey, hy⟩ := (@CowBook.restoreCow_sealed { cfg with chunk } hc crc32c _ hplain).2 hcap b er
  refine ⟨y, ey, fun post post' hops w'' epost => ?_⟩
  have hcaptured : CowBook.Mirrors cfg.cap { w with gen := u64 (w.gen + 1) } b := { h with hwm := h.hwm }
  obtain ⟨b'', eb, hw''⟩ := (CowBook.run_tracks post).forth hcaptured epost
  rw [← hops] at eb
  obtain ⟨y'', ey'', hy''⟩ := (CowBook.run_tracks post').back hcap hy eb
  have hshape := Book.run_shaped (CowCall.ops post') b
  rw [last_ok eb] at hshape
  have hnarrow' := hnarrow.of_shape hshape
  refine ⟨y'', ey'', hy''.agrees.alike hw''.agrees, fun buf' => ?_⟩
  rw [hy''.encodeRoot hnarrow' (fun _ _ => rfl) fun _ _ _ => rfl,
    hw''.encodeRoot hnarrow' (fun _ _ => rfl) fun _ _ _ => rfl]

theorem snapshot_restart_capturedRun :
    ∃ b data len, Book.run smallRun (Book.new smallBook) = .ok () b ∧
      b.encode (fun _ => 0) (List.replicate b.source.room 0) = .ok (data, len) ∧
      Book.restore (fun _ => 0) (data.take len) smallBook = .ok b := by
  obtain ⟨b, e, hb⟩ := (Book.run_holds smallBook_ok rfl (Book.new_holds smallBook_ok)
    smallRun_wellFormed smallRun_fits).1 _ (Book.new_shows smallBook)
  have hhwm : b.hwm ≤ 65535 := by
    obtain ⟨f, hf, ⟨q, fl, -, -, hle⟩, -⟩ := reached smallBook_ok smallRun_wellFormed
      (smallRun_wellFormed.slotsFit (by decide)) e
    rw [hf.hwm_eq]
    exact hle.trans (by decide)
  have hops : CowCall.ops CowBook.capturedRun = smallRun := rfl
  have hwf : WellFormed smallBook [] (CowCall.ops CowBook.capturedRun) := by
    rw [hops]
    exact smallRun_wellFormed
  have hrun : Book.run (CowCall.ops CowBook.capturedRun) (Book.new smallBook) = .ok () b := by
    rw [hops]
    exact e
  have hbuf : b.source.room ≤ (List.replicate b.source.room (0 : UInt8)).length :=
    Nat.le_of_eq List.length_replicate.symm
  obtain ⟨data, len, henc, hrest, -⟩ :=
    snapshot_restart smallBook_ok (by decide) (by decide) hwf hrun hhwm (fun _ => 0) hbuf
  exact ⟨b, data, len, e, henc, hrest⟩

theorem Book.run_nil (b : Book) : Book.run [] b = .ok () b := rfl

/-- A capacity that does not fit 32 bits comes back as another one. -/
theorem refused_of_cap {cfg : SmrConfig} (hg : cfg.grid.Ok) (hcap : u32 cfg.cap ≠ cfg.cap)
    (crc32c : List UInt8 → UInt32) {buf : List UInt8}
    (hbuf : (Book.new cfg).source.room ≤ buf.length) :
    ∃ data len text, (Book.new cfg).encode crc32c buf = .ok (data, len) ∧
      Book.restore crc32c (data.take len) cfg = .error (.err text) := by
  have hb := Book.new_shows cfg
  obtain ⟨q, fl, hrep, hfl, hle⟩ := Book.new_holds hg
  have hgroups := Book.noEmptyGroup hb hrep (Nat.zero_le _)
  have hrest := @Book.restore_sealed _ _ _ _ _ cfg crc32c hb hrep fl hfl hle hgroups
    fun h => absurd h hcap
  rw [if_neg hcap] at hrest
  obtain ⟨text, hrest⟩ := hrest
  obtain ⟨data, e, hseal⟩ :=
    Encoder.encode_ok crc32c (Book.source_readable hb hrep hle) hgroups hbuf
  exact ⟨data, _, text, e, by rw [hseal]; exact hrest⟩

/-- The bound on the capacity is needed: the image has it in 32 bits, so the
image of an empty book with 2^32 slots is refused. -/
theorem snapshot_refused_hugePool :
    hugePool.grid.Ok ∧ WellFormed hugePool [] [] ∧
      Book.run [] (Book.new hugePool) = .ok () (Book.new hugePool) ∧
      ∀ (crc32c : List UInt8 → UInt32) (buf : List UInt8),
        (Book.new hugePool).source.room ≤ buf.length →
        ∃ data len text, (Book.new hugePool).encode crc32c buf = .ok (data, len) ∧
          Book.restore crc32c (data.take len) hugePool = .error (.err text) :=
  have hok : hugePool.grid.Ok := ⟨by decide, by decide, by decide, by decide, by decide⟩
  ⟨hok, trivial, Book.run_nil _, fun crc32c _ hbuf => refused_of_cap hok (by decide) crc32c hbuf⟩

end HiPerf
