import HiPerf.Book.Gaps
import HiPerf.Ultima.Image

/-!
The image of a book of rows, restored as a flat book. Slots below the mark that
no order rests in are blank there and on no free list: the pool has gaps.
-/

namespace HiPerf

open Machine Tables Exec Bytes

/-- The mark of used slots is the slot the next order gets. -/
theorem Tape.steps_hwm {m : Tape} (h : m.flat.hwm = m.next) {ops : List Op}
    (hroom : m.next + inserts ops ≤ NIL) : (m.steps ops).flat.hwm = (m.steps ops).next := by
  have hdelete : ∀ (f : Flat) slot, (f.delete slot).hwm = f.hwm := by
    intro f slot
    unfold Flat.delete
    cases laneOf (f.ord slot).side <;> rfl
  induction ops generalizing m with
  | nil => exact h
  | cons op ops ih =>
    rw [inserts, List.map_cons, List.sum_cons] at hroom
    refine @ih (m.step op) ?_ (by rw [m.step_next]; unfold inserts; omega)
    cases op with
    | insert orderId price qty side =>
      simp only [Op.inserts, NIL] at hroom
      exact u32_eq_self (n := m.next + 1) (by omega)
    | update orderId fillQty => simp only [step]; split <;> exact h
    | cancel orderId => simp only [step]; split <;> first | exact (hdelete _ _).trans h | exact h
    | fill orderId => simp only [step]; split <;> first | exact (hdelete _ _).trans h | exact h

section

variable {f : Flat} {L : Ledger} {q : Lane → Nat → List Nat} {n : Nat} {cfg : SmrConfig}

theorem Sparse.image_plain (hs : Sparse f L q n) (hlen : L.length ≤ 65535) (cap : Int) :
    (f.image (u32 cap) f.slots).Plain := by
  have hlevels := UltimaBook.levelRecs_le hs
  refine Flat.image_plain hs.rep (u32_lt cap) hs.freeHead.le (fun s hmem => ?_)
    (by rw [UltimaBook.slots_length hs.rep]; omega) (by omega)
  have := hs.rep.queued_lt ((UltimaBook.mem_slots hs.rep s).mp hmem)
  have := hs.rep.hwm_le
  simp only [NIL] at this
  omega

/-- What `restore` makes of an image that holds the resting orders only. -/
theorem Sparse.restore (hs : Sparse f L q n) (hlen : L.length ≤ 65535) (hgrid : f.grid = cfg.grid)
    (hcap : f.hwm ≤ cfg.cap) (crc32c : List UInt8 → UInt32) :
    if u32 cfg.cap = cfg.cap then
      ∃ x, Book.restore crc32c (Encoder.sealed crc32c (f.image (u32 cfg.cap) f.slots)) cfg = .ok x ∧
        x.Shows cfg.cap f ∧ x.Narrow
    else ∃ text, Book.restore crc32c (Encoder.sealed crc32c (f.image (u32 cfg.cap) f.slots)) cfg =
      .error (.err text) := by
  set m := f.image (u32 cfg.cap) f.slots with hm
  have hb := UltimaBook.book_shows hs hcap
  have hn := f.book_narrow cfg.cap
  have hmsg := Decoder.message_image Book.sink (hs.image_plain hlen cfg.cap) cfg.cap (Book.new cfg)
  rw [← hm] at hmsg
  have hrest : Book.restore crc32c (Encoder.sealed crc32c m) cfg =
      Decoder.into Book.sink (bytes m.fields) cfg.cap (Book.new cfg) := by
    rw [Book.restore, Decoder.checked_sealed]
    rfl
  rw [hrest, Decoder.into, hmsg, show m.scalars.capacity = u32 cfg.cap from rfl]
  split
  · have hscalars : m.scalars = (f.book cfg.cap).source.scalars := by
      simp [hm, Flat.image, Book.source, Flat.book]
    have hblank : Decoder.setScalars Book.sink m.scalars (Book.new cfg) =
        Book.blankOf cfg (f.book cfg.cap) := by rw [hscalars, Book.blankOf]
    have hlevels : ∀ r ∈ m.levels, r.1 ≤ 1 ∧
        r.2.1 < ((Book.blankOf cfg (f.book cfg.cap)).lane r.1).size ∧
        ((f.book cfg.cap).lane r.1)[r.2.1]? = some r.2.2 := by
      intro r hr
      obtain ⟨hside, ht, e, -⟩ := mem_levelRecs hr
      have hlvl := hb.digest_level hn r.1 ht
      rw [← e] at hlvl
      exact ⟨hside, by rw [Book.blankOf_lane_size]; rw [hgrid] at ht; exact ht, hlvl⟩
    have horders : ∀ r ∈ m.orders, r.1 < (Book.blankOf cfg (f.book cfg.cap)).pool.size ∧
        (f.book cfg.cap).pool[r.1]? = some r.2 ∧
        (r.2.orderId ≠ 0 → (f.book cfg.cap).idmap r.2.orderId = some r.1) := by
      intro r hr
      obtain ⟨s, hmem, rfl⟩ := List.mem_map.mp hr
      have hq := (UltimaBook.mem_slots hs.rep s).mp hmem
      have hlt := hs.rep.queued_lt hq
      refine ⟨by rw [Book.blankOf_pool_size]; dsimp only; omega, hb.digest_order (by omega), fun _ => ?_⟩
      exact (hs.rep.ids _ s).mpr ⟨hq, rfl⟩
    obtain ⟨x, e, hx⟩ := Book.putRecords_patched hlevels horders
    rw [hblank, e]
    have hview : x.view = f := by
      refine hx.view_eq hb hs.rep (fun r hr => ?_) fun s hss => ?_
      · rw [hb.levelRecs_eq hn] at hr
        exact List.mem_map_of_mem hr
      · refine hs.blank s fun hq => hss ?_
        simp only [hm, Flat.image, Flat.orderRecs, List.map_map]
        exact List.mem_map.mpr ⟨s, (UltimaBook.mem_slots hs.rep s).mpr hq, rfl⟩
    have hlevels : x.nLevels = cfg.levels := by
      have e : x.view.grid.nLevels = cfg.grid.nLevels := by rw [hview, hgrid]
      exact e
    have hbids : x.bids.size = cfg.levels := (hx.lanes 0 (by omega)).trans (Book.blankOf_lane_size 0)
    have hasks : x.asks.size = cfg.levels := (hx.lanes 1 (by omega)).trans (Book.blankOf_lane_size 1)
    exact ⟨x, rfl, ⟨hview, hx.pool_size.trans Book.blankOf_pool_size, by omega, by omega⟩,
      ⟨by omega, by omega⟩⟩
  · exact ⟨_, rfl⟩

/-- A memory whose slots are used once has gaps and nothing on its free list. -/
theorem Sparse.spares (hs : Sparse f L q n) {cap : Nat} (hcap : f.hwm ≤ cap) : f.Spares cap L := by
  refine ⟨q, [], hs.rep, ⟨hs.freeHead, List.nodup_nil, by simp, fun s hle => ?_⟩, hcap⟩
  refine hs.blank s fun hq => ?_
  have := hs.rep.queued_lt hq
  omega

/-- Memories that hold the same orders have the same digest. -/
theorem digest_eq_of_rep {f' : Flat} {q' : Lane → Nat → List Nat} (h : Rep f L q) (h' : Rep f' L q')
    (hg : f'.grid = f.grid) :
    L.digest f'.grid f'.bestBid f'.bestAsk = L.digest f.grid f.bestBid f.bestAsk := by
  obtain ⟨hbid, hask⟩ := h.bests_eq h' hg
  rw [hbid, hask, hg]

end

namespace UltimaBook

variable {db : Db} {u₀ : UltimaBook db} {cfg : SmrConfig} {ops : List Op}

/-- A book of rows after a well-formed sequence: the memory it shows, and its image. -/
theorem reached (hdb : db.Lawful) (hg : cfg.grid.Ok) (h₀ : new db cfg = .ok u₀)
    (hwf : WellFormed cfg [] ops) (hfit : ∀ op ∈ ops, op.OffsetFits cfg)
    (hins : inserts ops ≤ NIL) (hne : ops ≠ []) :
    ∃ u f q, run ops u₀ = .ok () u ∧ u.Shows (u32 cfg.cap) ⟨f, inserts ops⟩ ∧
      Sparse f (Ledger.after [] ops) q (inserts ops) ∧ f.grid = cfg.grid ∧ f.hwm = inserts ops := by
  obtain ⟨u, eu, hu, ⟨q, hs⟩, hgrid⟩ := run_new hdb hg h₀ (hwf.admitted_of hg hfit) hins
  have hnext := (blankTape cfg).steps_next ops
  rw [show (blankTape cfg).next = 0 from rfl, Nat.zero_add] at hnext
  have hhwm := @Tape.steps_hwm (blankTape cfg) rfl ops (by simpa [blankTape] using hins)
  refine ⟨u, _, q, eu, ?_, hnext ▸ hs, hgrid, hhwm.trans hnext⟩
  rw [← hnext]
  exact hu hne

/-- Later calls on a book of rows whose tables show a memory. -/
theorem Shows.run (hdb : db.Lawful) {u : UltimaBook db} {f : Flat} {L : Ledger}
    {q : Lane → Nat → List Nat} {n capacity : Nat} (hu : u.Shows capacity ⟨f, n⟩)
    (hs : Sparse f L q n) {post : List Op} (hadm : Admitted f.grid L post)
    (hroom : n + inserts post ≤ NIL) :
    ∃ u' f' q', UltimaBook.run post u = .ok () u' ∧ f'.grid = f.grid ∧
      Rep f' (L.after post) q' ∧
      digestUltima u'.store u'.version = .ok ((L.after post).digest f'.grid f'.bestBid f'.bestAsk) := by
  obtain ⟨u', eu', -, hu', ⟨q', hs'⟩, hgrid'⟩ :=
    @run_shows db L capacity u hdb f.grid ⟨f, n⟩ post rfl ⟨q, hs⟩ hadm hroom (hu.opens hdb)
  refine ⟨u', _, q', eu', hgrid', hs'.rep, ?_⟩
  cases post with
  | nil =>
    cases eu'
    exact hu.digest hdb hs'
  | cons op post => exact (hu' (List.cons_ne_nil _ _)).digest hdb hs'

/-- A book of rows after a well-formed sequence, and the image it is encoded to. -/
theorem encoded (hdb : db.Lawful) (hg : cfg.grid.Ok) (h₀ : new db cfg = .ok u₀)
    (hwf : WellFormed cfg [] ops) (hfit : ∀ op ∈ ops, op.OffsetFits cfg) (hne : 1 ≤ inserts ops)
    (hins : inserts ops ≤ 65535) (crc32c : List UInt8 → UInt32) {buf : List UInt8}
    (hbuf : 60 + (LEVELS_BLOCK + ORDERS_BLOCK) * (Ledger.after [] ops).length ≤ buf.length) :
    ∃ u f q data len, run ops u₀ = .ok () u ∧ u.Shows (u32 cfg.cap) ⟨f, inserts ops⟩ ∧
      Sparse f (Ledger.after [] ops) q (inserts ops) ∧ f.grid = cfg.grid ∧ f.hwm = inserts ops ∧
      (Ledger.after [] ops).length ≤ 65535 ∧
      encodeAt crc32c u.store u.version buf = .ok (data, len) ∧
      data.take len = Encoder.sealed crc32c (f.image (u32 cfg.cap) f.slots) := by
  have hnil : (65535 : Nat) ≤ NIL := by decide
  have hops : ops ≠ [] := by
    rintro rfl
    cases hne
  obtain ⟨u, f, q, eu, hu, hs, hgrid, hhwm⟩ := reached hdb hg h₀ hwf hfit (by omega) hops
  have hlen : (Ledger.after [] ops).length ≤ 65535 := by
    have := Ledger.length_after_le [] ops
    simp only [List.length_nil] at this
    omega
  obtain ⟨data, len, e, hdata⟩ := hu.encodeAt hdb hs hlen crc32c
    (show _ ≤ buf.length by
      have := Nat.mul_le_mul_left LEVELS_BLOCK (levelRecs_le hs)
      rw [Nat.add_mul] at hbuf
      dsimp only
      omega)
  exact ⟨u, f, q, data, len, eu, hu, hs, hgrid, hhwm, hlen, e, hdata⟩

/-- On a pool of fewer than 2^32 slots the image of a book of rows is accepted by
`restore`, and the flat book has the digest of the book of rows, after whatever
calls it completes, with at most `u32::MAX` inserts in all. -/
theorem into_flat (hdb : db.Lawful) (hg : cfg.grid.Ok) (hcap : cfg.cap < 4294967296)
    (h₀ : new db cfg = .ok u₀) (hwf : WellFormed cfg [] ops) (hfit : ∀ op ∈ ops, op.OffsetFits cfg)
    (hne : 1 ≤ inserts ops) (hins : inserts ops ≤ min cfg.cap 65535)
    (crc32c : List UInt8 → UInt32) {buf : List UInt8}
    (hbuf : 60 + (LEVELS_BLOCK + ORDERS_BLOCK) * (Ledger.after [] ops).length ≤ buf.length) :
    ∃ u data len x, run ops u₀ = .ok () u ∧
      encodeAt crc32c u.store u.version buf = .ok (data, len) ∧
      Book.restore crc32c (data.take len) cfg = .ok x ∧
      ∀ post, WellFormed cfg (Ledger.after [] ops) post → (∀ op ∈ post, op.OffsetFits cfg) →
        inserts ops + inserts post ≤ NIL → ∀ x', Book.run post x = .ok () x' →
        ∃ u' d, run post u = .ok () u' ∧ digestBook x' = .ok d ∧
          digestUltima u'.store u'.version = .ok d := by
  obtain ⟨u, f, q, data, len, eu, hu, hs, hgrid, hhwm, hlen, e, hdata⟩ :=
    encoded hdb hg h₀ hwf hfit hne (by omega) crc32c hbuf
  have hrest := hs.restore hlen hgrid (by omega) crc32c
  rw [if_pos (u32_eq_self hcap)] at hrest
  obtain ⟨x, ex, hx, hnarrow⟩ := hrest
  refine ⟨u, data, len, x, eu, e, hdata ▸ ex, fun post hpost hfit' hroom x' hrun => ?_⟩
  have hadm : Admitted f.grid (Ledger.after [] ops) post := hgrid ▸ hpost.admitted_of hg hfit'
  obtain ⟨u', f', q', eu', hg', hrep', hd'⟩ := hu.run hdb hs hadm hroom
  obtain ⟨hx', ⟨q'', fl, hrep, -, hle⟩, hgx⟩ := Book.run_spares (by simp only [NIL]; omega) rfl hx
    (hs.spares (by omega)) hadm hrun
  have hshape := Book.run_shaped post x
  rw [last_ok hrun] at hshape
  refine ⟨u', _, eu', hx'.digest hrep hle (hnarrow.of_shape hshape), ?_⟩
  rw [hd', digest_eq_of_rep hrep hrep' (hg'.trans hgx.symm)]

theorem into_flat_smallRun : ∃ u₀ u data len x, new reference smallBook = .ok u₀ ∧
    run smallRun u₀ = .ok () u ∧
    encodeAt crc32c u.store u.version (List.replicate 200 0) = .ok (data, len) ∧
    Book.restore crc32c (data.take len) smallBook = .ok x ∧
    ∀ post, WellFormed smallBook (Ledger.after [] smallRun) post →
      (∀ op ∈ post, op.OffsetFits smallBook) → inserts smallRun + inserts post ≤ NIL →
      ∀ x', Book.run post x = .ok () x' → ∃ u' d, run post u = .ok () u' ∧ digestBook x' = .ok d ∧
        digestUltima u'.store u'.version = .ok d := by
  obtain ⟨u₀, e₀, -⟩ := new_opens reference_lawful smallBook
  obtain ⟨u, data, len, x, h⟩ := into_flat reference_lawful smallBook_ok (by decide) e₀
    smallRun_wellFormed (by decide) (by decide) (by decide) crc32c
    (show _ ≤ (List.replicate 200 (0 : UInt8)).length by rw [List.length_replicate]; decide)
  exact ⟨u₀, u, data, len, x, e₀, h⟩

end UltimaBook

/-- One level and two slots. -/
def twoSlots : SmrConfig := ⟨2, 1, 1, 0, 1, 1, 100⟩

theorem twoSlots_ok : twoSlots.grid.Ok := ⟨by decide, by decide, by decide, by decide, by decide⟩

/-- On a pool with gaps, bids that come and go one at a time find their slot. -/
theorem Book.pingPong_spares {cfg : SmrConfig} (hg : cfg.grid.Ok) (hcap : 1 ≤ cfg.cap)
    (hnil : cfg.cap ≤ NIL) {f : Flat} {b : Book} (hfg : f.grid = cfg.grid) (hb : b.Shows cfg.cap f)
    (h : f.Spares cfg.cap []) (hroom : f.freeHead = NIL → f.hwm < cfg.cap) {n : Nat}
    (hn : n ≤ 4294967296) : ∃ b' f', Book.run (pingPong cfg.priceMin n) b = .ok () b' ∧
      b'.Shows cfg.cap f' ∧ f'.Spares cfg.cap [] ∧ f'.grid = cfg.grid ∧
      (f'.freeHead = NIL → f'.hwm < cfg.cap) := by
  induction n with
  | zero =>
    rw [pingPong_zero]
    exact ⟨b, f, rfl, hb, h, hfg, hroom⟩
  | succ n ih =>
    obtain ⟨b₁, f₁, e₁, hb₁, h₁, hg₁, hroom₁⟩ := ih (by omega)
    have hwf := firstBid_wellFormed hg hcap (show 1 ≤ (n + 1 : Int) by omega) (by omega)
    have hadm := hwf.admitted_of hg (by simp [Op.OffsetFits, InI64])
    rw [← hg₁] at hadm
    obtain ⟨b₂, e₂, hb₂⟩ := apply_runs_of h₁ hadm (fun _ => hroom₁) b₁ hb₁
    have h₂ := h₁.step hnil hadm fun _ => hroom₁
    have hcancel : (Op.cancel (n + 1)).Admitted (f₁.step (.insert (n + 1) cfg.priceMin 1 0)).grid
        (Ledger.apply [] (.insert (n + 1) cfg.priceMin 1 0)) := by
      simp [Op.Admitted, Ledger.apply, Ledger.ids]
    obtain ⟨b₃, e₃, hb₃⟩ := apply_runs_of h₂ hcancel (fun e => by cases e) b₂ hb₂
    have h₃ := h₂.step hnil hcancel fun e => by cases e
    refine ⟨b₃, _, ?_, hb₃, ?_, ?_, fun hfree => ?_⟩
    · rw [pingPong_succ]
      exact runAll_append_eq_ok.mpr ⟨b₂, runAll_append_eq_ok.mpr ⟨b₁, e₁,
        runAll_cons_eq_ok.mpr ⟨b₂, e₂, rfl⟩⟩, runAll_cons_eq_ok.mpr ⟨b₃, e₃, rfl⟩⟩
    · simpa [Ledger.apply] using h₃
    · rw [Flat.step_grid, Flat.step_grid, hg₁]
    · -- the cancel has put a slot on the free list
      obtain ⟨q, fl, hrep, -, -⟩ := h₂
      obtain ⟨slot, e, hq, hid⟩ := hrep.ids_isSome hcancel
      obtain ⟨-, -, hhead⟩ :=
        remove_ord (f₁.step (.insert (n + 1) cfg.priceMin 1 0)) slot Flat.withdrawn
      simp only [Flat.step] at e hhead hid hfree
      simp only [e] at hfree
      rw [hid] at hhead
      exact absurd (hhead.symm.trans hfree) (hrep.queued_ne_nil hq)

namespace UltimaBook

/-- A capacity that does not fit 32 bits comes back as another one. -/
theorem refused_hugePool : ∃ u₀ u data len text, new reference hugePool = .ok u₀ ∧
    run [.insert 1 0 1 0] u₀ = .ok () u ∧
    encodeAt crc32c u.store u.version (List.replicate 200 0) = .ok (data, len) ∧
    Book.restore crc32c (data.take len) hugePool = .error (.err text) := by
  obtain ⟨u₀, e₀, -⟩ := new_opens reference_lawful hugePool
  have hwf : WellFormed hugePool [] [.insert 1 0 1 0] := by decide
  obtain ⟨u, f, q, data, len, eu, -, hs, hgrid, hhwm, hlen, e, hdata⟩ :=
    encoded reference_lawful hugePool_ok e₀ hwf (by decide) (by decide) (by decide) crc32c
      (show _ ≤ (List.replicate 200 (0 : UInt8)).length by rw [List.length_replicate]; decide)
  have hrest := hs.restore hlen hgrid (by rw [hhwm]; decide) crc32c
  rw [if_neg (by decide)] at hrest
  obtain ⟨text, ex⟩ := hrest
  exact ⟨u₀, u, data, len, text, e₀, eu, e, hdata ▸ ex⟩

/-- Both bounds are needed. A pool of 2^32 slots: `restore` refuses the image. A
pool of two: after `u32::MAX` bids that came and went, the next one parts the
digests. -/
theorem not_into_flat :
    (hugePool.grid.Ok ∧ WellFormed hugePool [] [.insert 1 0 1 0] ∧
      ∃ u₀ u data len text, new reference hugePool = .ok u₀ ∧
        run [.insert 1 0 1 0] u₀ = .ok () u ∧
        encodeAt crc32c u.store u.version (List.replicate 200 0) = .ok (data, len) ∧
        Book.restore crc32c (data.take len) hugePool = .error (.err text)) ∧
    twoSlots.grid.Ok ∧ ∃ ops post, WellFormed twoSlots [] ops ∧
      inserts ops = 1 ∧ WellFormed twoSlots (Ledger.after [] ops) post ∧
      ∃ u₀ u data len x, new reference twoSlots = .ok u₀ ∧ run ops u₀ = .ok () u ∧
        encodeAt crc32c u.store u.version (List.replicate 200 0) = .ok (data, len) ∧
        Book.restore crc32c (data.take len) twoSlots = .ok x ∧
        ∃ x' u' d d', Book.run post x = .ok () x' ∧ run post u = .ok () u' ∧
          digestBook x' = .ok d ∧ digestUltima u'.store u'.version = .ok d' ∧ d ≠ d' := by
  refine ⟨⟨hugePool_ok, by decide, refused_hugePool⟩, twoSlots_ok, pingPong 0 1,
    pingPong 0 (NIL - 1) ++ [.insert (NIL + 1) 0 1 0], pingPong_wellFormed twoSlots_ok (by decide)
      (by decide), inserts_pingPong 0 1, ?_, ?_⟩
  · rw [wellFormed_concat, after_pingPong, after_pingPong]
    exact ⟨pingPong_wellFormed twoSlots_ok (by decide) (by decide),
      firstBid_wellFormed twoSlots_ok (by decide) (by decide) (by decide)⟩
  have hwf : WellFormed twoSlots [] (pingPong 0 1) :=
    pingPong_wellFormed twoSlots_ok (by decide) (by decide)
  have hwf' : WellFormed twoSlots [] (pingPong 0 (NIL - 1)) :=
    pingPong_wellFormed twoSlots_ok (by decide) (by decide)
  have hoff : ∀ n, ∀ op ∈ pingPong 0 n, op.OffsetFits twoSlots := pingPong_offsets twoSlots
  have hafter : ∀ n, Ledger.after [] (pingPong 0 n) = [] := after_pingPong 0
  have hins : ∀ n, inserts (pingPong 0 n) = n := inserts_pingPong 0
  have hlast : (Op.insert (NIL + 1) 0 1 0).WellFormed twoSlots [] :=
    firstBid_wellFormed twoSlots_ok (by decide) (by decide) (by decide)
  have hlastfit : (Op.insert (NIL + 1) 0 1 0).OffsetFits twoSlots := by decide
  obtain ⟨u₀, e₀, -⟩ := new_opens reference_lawful twoSlots
  obtain ⟨u, f, q, data, len, eu, hu, hs, hgrid, hhwm, hlen, e, hdata⟩ :=
    encoded reference_lawful twoSlots_ok e₀ hwf (hoff 1) (Nat.le_of_eq (hins 1).symm)
      (by rw [hins]; decide) crc32c
      (show _ ≤ (List.replicate 200 (0 : UInt8)).length by
        rw [List.length_replicate, hafter]
        decide)
  rw [hins] at hhwm hs hu
  rw [hafter] at hs
  have hrest := hs.restore (by decide) hgrid (by rw [hhwm]; decide) crc32c
  rw [if_pos (by decide)] at hrest
  obtain ⟨x, ex, hx, hnarrow⟩ := hrest
  -- the flat book uses two slots, one after the other
  obtain ⟨x₁, f₁, ex₁, hx₁, hsp₁, hg₁, hroom₁⟩ := Book.pingPong_spares twoSlots_ok (by decide)
    (by decide) hgrid hx (hs.spares (by rw [hhwm]; decide)) (fun _ => by rw [hhwm]; decide)
    (show NIL - 1 ≤ 4294967296 by decide)
  have hadm₁ := hlast.admitted_of twoSlots_ok hlastfit
  rw [← hg₁] at hadm₁
  obtain ⟨x', ex', hx'⟩ := Book.apply_runs_of hsp₁ hadm₁ (fun _ => hroom₁) x₁ hx₁
  obtain ⟨q', fl, hrep', -, hle'⟩ := hsp₁.step (by decide) hadm₁ fun _ => hroom₁
  have hrun : Book.run (pingPong 0 (NIL - 1) ++ [.insert (NIL + 1) 0 1 0]) x = .ok () x' :=
    runAll_append_eq_ok.mpr ⟨x₁, ex₁, runAll_cons_eq_ok.mpr ⟨x', ex', rfl⟩⟩
  have hshape := Book.run_shaped (pingPong 0 (NIL - 1) ++ [.insert (NIL + 1) 0 1 0]) x
  rw [last_ok hrun] at hshape
  -- the book of rows is out of slot numbers
  have hroom : 1 + (NIL - 1) = NIL := Nat.add_sub_of_le (by decide)
  obtain ⟨u₁, eu₁, -, hu₁, hm₁, hgrid₁⟩ := @run_shows _ [] _ u reference_lawful twoSlots.grid ⟨f, 1⟩
    (pingPong 0 (NIL - 1)) hgrid ⟨q, hs⟩ (hwf'.admitted_of twoSlots_ok (hoff _))
    (by rw [hins]; exact Nat.le_of_eq hroom) (hu.opens reference_lawful)
  have hnext : ((Tape.mk f 1).steps (pingPong 0 (NIL - 1))).next = NIL := by
    rw [Tape.steps_next, hins]
    exact hroom
  have hne : pingPong 0 (NIL - 1) ≠ [] := by
    intro e
    have := hins (NIL - 1)
    rw [e] at this
    exact absurd this (by decide)
  generalize (Tape.mk f 1).steps (pingPong 0 (NIL - 1)) = m at hu₁ hm₁ hgrid₁ hnext
  rw [hafter] at hm₁
  have hadm₂ := hlast.admitted_of twoSlots_ok hlastfit
  rw [← hgrid₁] at hadm₂
  obtain ⟨u', eu', hu'⟩ := apply_run reference_lawful hm₁ hadm₂ (Nat.le_of_eq hnext)
    ((hu₁ hne).opens reference_lawful)
  obtain ⟨q₂, hs₂⟩ := hm₁
  obtain ⟨d', ed', hd'⟩ := digest_appendNil reference_lawful hnext hs₂ hu'
  refine ⟨u₀, u, data, len, x, e₀, eu, e, hdata ▸ ex, x', u', _, d', hrun,
    runAll_append_eq_ok.mpr ⟨u₁, eu₁, runAll_cons_eq_ok.mpr ⟨u', eu', rfl⟩⟩,
    hx'.digest hrep' hle' (hnarrow.of_shape hshape), ed', fun e => ?_⟩
  rw [← e, Flat.step_grid, hg₁] at hd'
  change (Ledger.digest [⟨NIL + 1, 0, 1, 0, 0⟩] hugePool.grid _ _).length ≤ 45 at hd'
  rw [digest_oneBid] at hd'
  omega

end UltimaBook

end HiPerf
