import HiPerf.Book.Invariant
import HiPerf.Go.Agree
import HiPerf.Go.Roots
import HiPerf.Snapshot.Reads
import HiPerf.Snapshot.RestoreCow

/-!
The two Go stores side by side, from new or from an image: over any calls they stop together,
and what one encodes at a capture the other encodes at any later time.
-/

namespace HiPerf.Go

open Machine Exec Epoch Decoder

section Reads

variable {strict : Prop} {σ τ α : Type} {I : σ → τ → Prop}

theorem getLevel_lockstep (data : List UInt8) (position : Nat) :
    Lockstep strict I (getLevel data position : Restoring σ LevelRec)
      (getLevel data position : Restoring τ LevelRec) := by
  unfold getLevel
  refine (read_lockstep _ data _ 1).bind fun _ => (read_lockstep _ data _ 4).bind fun _ => ?_
  refine (read_lockstep _ data _ 4).bind fun _ => (read_lockstep _ data _ 4).bind fun _ => ?_
  exact (read_lockstep _ data _ 8).bind fun _ => (read_lockstep _ data _ 4).bind fun _ =>
    Lockstep.pure _

theorem getOrder_lockstep (data : List UInt8) (position : Nat) :
    Lockstep strict I (getOrder data position : Restoring σ OrderRec)
      (getOrder data position : Restoring τ OrderRec) := by
  unfold getOrder
  refine (read_lockstep _ data _ 4).bind fun _ => (read_lockstep _ data _ 8).bind fun _ => ?_
  refine (read_lockstep _ data _ 8).bind fun _ => (read_lockstep _ data _ 8).bind fun _ => ?_
  refine (read_lockstep _ data _ 8).bind fun _ => (read_lockstep _ data _ 4).bind fun _ => ?_
  exact (read_lockstep _ data _ 4).bind fun _ => (read_lockstep _ data _ 1).bind fun _ =>
    Lockstep.pure _

end Reads

namespace CowBook

variable {strict : Prop} {rows levels : Nat} {K : Knowledge} {w : CowBook} {b : Book}

/-- Two decoders that leave mirroring books. -/
abbrev Restores (strict : Prop) (rows levels : Nat) (K : Knowledge) {α : Type}
    (x : Restoring CowBook α) (y : Restoring Book α) : Prop :=
  Lockstep strict (Mirrors rows levels K) x y

theorem check_tracks (position sbeLen : Nat) (text : String) : Restores strict rows levels K
    (CowSnapshot.check position sbeLen text) (Snapshot.check position sbeLen text) :=
  Lockstep.ite Iff.rfl (fun _ => Lockstep.throw _ _) fun _ => Lockstep.pure _

theorem wrapGroup_tracks (data : List UInt8) (sbeLen position : Nat) :
    Restores strict rows levels K (CowSnapshot.wrapGroup data sbeLen position)
      (Snapshot.wrapGroup data sbeLen position) := by
  refine (check_tracks _ _ _).bind fun _ => (read_lockstep _ data _ 2).bind fun _ => ?_
  exact (read_lockstep _ data _ 2).bind fun _ => Lockstep.pure _

theorem readLevels_tracks (data : List UInt8) (sbeLen blockLength n position : Nat) :
    Restores strict rows levels K (CowSnapshot.readLevels data sbeLen blockLength n position)
      (Snapshot.readLevels data sbeLen blockLength n position) := by
  induction n generalizing position with
  | zero => exact Lockstep.pure _
  | succ n ih =>
    refine (check_tracks _ _ _).bind fun _ => (getLevel_lockstep data position).bind ?_
    intro ⟨side, t, lvl⟩
    exact (lift_lockstep (levelMut_set side t lvl)).bind fun _ => ih _

theorem putOrder_tracks (slot : Nat) (o : Order) :
    Tracks strict rows levels K (CowSnapshot.putOrder slot o) (Book.setOrder slot o) := by
  have h := @orderMut_set strict rows levels slot Unit K (Mirrors rows levels K) o (pure ())
    (pure ()) (Lockstep.pure ())
  simp only [bind_pure_unit] at h
  exact h

theorem readOrders_tracks (data : List UInt8) (sbeLen blockLength n position : Nat) :
    Restores strict rows levels K (CowSnapshot.readOrders data sbeLen blockLength n position)
      (Snapshot.readOrders data sbeLen blockLength n position) := by
  induction n generalizing position with
  | zero => exact Lockstep.pure _
  | succ n ih =>
    refine (check_tracks _ _ _).bind fun _ => (getOrder_lockstep data position).bind ?_
    intro ⟨slot, o⟩
    exact (lift_lockstep (putOrder_tracks slot o)).bind fun _ => ih _

theorem indexSlots_tracks (slot n : Nat) :
    Tracks strict rows levels K (indexSlots slot n) (Book.indexSlots slot n) := by
  induction n generalizing slot with
  | zero => exact Lockstep.pure _
  | succ n ih =>
    refine (order_tracks slot).bind fun o => Lockstep.ite Iff.rfl (fun _ => ?_) fun _ => ?_
    · exact (putId_tracks _ _).bind fun _ => ih _
    · exact ih _

theorem rebuildIDs_tracks : Tracks strict rows levels K rebuildIDs Book.rebuildIDs := by
  refine Lockstep.get_bind fun w b h => ?_
  have hids : newIDMap w.capacity = newIDMap b.pool.size := by rw [h.capacity]
  have hslots : indexSlots 0 w.hwm = indexSlots 0 b.hwm := by rw [h.hwm]
  rw [hids, hslots]
  cases newIDMap b.pool.size with
  | none => exact Lockstep.throw _ _
  | some m =>
    refine Lockstep.bind (Lockstep.of_cases fun w' b' h' => ?_) fun _ => indexSlots_tracks 0 b.hwm
    exact .inl ⟨(), _, _, rfl, rfl, h.setIds m⟩

/-- The books under way take on the numbers of the image, whatever these are. -/
theorem message_tracks (data : List UInt8) (sbeLen position cap : Nat) :
    Meets strict (Mirrors rows levels K) (fun w b => ∃ levels, Mirrors rows levels K w b)
      (CowSnapshot.message data sbeLen position cap) (Snapshot.message data sbeLen position cap) := by
  unfold CowSnapshot.message Snapshot.message
  refine Meets.bind (read_lockstep _ data _ 8) fun priceMin => ?_
  refine Meets.bind (read_lockstep _ data _ 8) fun tick => ?_
  refine Meets.bind (read_lockstep _ data _ 4) fun nLevels => ?_
  refine Meets.bind (read_lockstep _ data _ 4) fun hwm => ?_
  refine Meets.bind (read_lockstep _ data _ 4) fun bestBid => ?_
  refine Meets.bind (read_lockstep _ data _ 4) fun bestAsk => ?_
  have hset : Meets strict (Mirrors rows levels K) (Mirrors rows nLevels K)
      (modify fun w => { w with priceMin, tick, nLevels, hwm, bestBid, bestAsk } :
        Restoring CowBook Unit)
      (modify fun b => { b with priceMin, tick, nLevels, hwm, bestBid, bestAsk }) := by
    intro w b h
    have h' : Mirrors rows nLevels K { w with priceMin, tick, nLevels, hwm, bestBid, bestAsk }
        { b with priceMin, tick, nLevels, hwm, bestBid, bestAsk } :=
      { h with
        priceMin := rfl
        tick := rfl
        nLevels := rfl
        levels := rfl
        hwm := rfl
        bestBid := rfl
        bestAsk := rfl
        known := h.same rfl rfl rfl rfl }
    exact ⟨fun a s' e => ⟨_, by cases e; rfl, by cases e; exact h'⟩,
      fun _ a t' e => ⟨_, by cases e; rfl, by cases e; exact h'⟩⟩
  refine Meets.bind hset fun _ => Meets.learn ?_ (fun _ _ h => h) fun _ _ _ _ _ h => ⟨nLevels, h⟩
  refine Lockstep.bind (read_lockstep _ data _ 4) fun capacity => ?_
  refine Lockstep.ite Iff.rfl (fun _ => Lockstep.bind (Lockstep.throw _ _) fun _ => ?_) fun _ => ?_
  all_goals
    refine (read_lockstep _ data _ 4).bind fun freeHead => Lockstep.bind (Lockstep.modify
      fun _ _ h => { h with freeHead := rfl, known := h.same rfl rfl rfl rfl }) fun _ => ?_
    refine (wrapGroup_tracks data sbeLen _).bind fun g => ?_
    refine (readLevels_tracks data sbeLen _ _ _).bind fun position => ?_
    refine (wrapGroup_tracks data sbeLen _).bind fun g => ?_
    exact (readOrders_tracks data sbeLen _ _ _).bind fun _ => lift_lockstep rebuildIDs_tracks

theorem newCowBook_mirrors {cfg : SmrConfig} (hchunk : 1 ≤ cfg.chunk) {g : Book}
    (hnew : newBook cfg = some g) : ∃ w, newCowBook cfg = .ok w ∧
      Mirrors cfg.levels cfg.levels (genIs 1) w g := by
  obtain ⟨m, hm, rfl⟩ := Option.map_eq_some_iff.mp hnew
  have hne : ¬ cfg.chunk = 0 := by omega
  refine ⟨_, by rw [newCowBook, if_neg hne, hm]; rfl, ?_⟩
  have hlevels : ∀ t, (Pages.full LEVEL_CHUNK cfg.levels ⟨NIL, NIL, 0, 0⟩).get LEVEL_CHUNK t =
      (Array.replicate cfg.levels (⟨NIL, NIL, 0, 0⟩ : PriceLevel))[t]? := fun t => by
    rw [Pages.full_get (by decide), Array.getElem?_replicate]
  constructor
  case order =>
    intro s
    exact (Pages.full_get hchunk cfg.cap zeroOrder s).trans Array.getElem?_replicate.symm
  case level =>
    intro side t
    unfold lane Book.lane
    split
    · exact hlevels t
    · exact hlevels t
  case size =>
    intro side
    unfold Book.lane
    split
    · exact Array.size_replicate
    · exact Array.size_replicate
  case capacity => exact Array.size_replicate.symm
  case orders => exact Pages.full_sound _ _ _
  case bids => exact Pages.full_sound _ _ _
  case asks => exact Pages.full_sound _ _ _
  case known => rfl
  all_goals rfl

end CowBook

/-- Both writers complete the calls, and at the end every root, and the one of the end itself,
is encoded as the flat book was at that capture; or both stop. -/
def ServeAlike (calls : List CowCall) (w : CowBook) (b : Book) : Prop :=
  (∃ rs w' bs b', CowBook.serve calls w = .ok rs w' ∧ Book.serve calls b = .ok bs b' ∧
    List.Forall₂ (fun r b => ∀ crc32c buf, r.encode crc32c w' buf = Book.encode crc32c b buf)
      (rs ++ [w'.root]) (bs ++ [b'])) ∨
  ∃ p w' q b', CowBook.serve calls w = .error p w' ∧ Book.serve calls b = .error q b'

namespace CowBook

variable {rows levels : Nat} {w : CowBook} {b g : Book} {cfg : SmrConfig}

theorem Mirrors.serveAlike (h : Mirrors rows rows (genIs 1) w b) {calls : List CowCall}
    (hcalls : CowCall.captures calls < 18446744073709551615) : ServeAlike calls w b := by
  have hgen : w.gen = 1 := h.known
  have hencode : ∀ {w : CowBook} {r : CowRoot} {b : Book}, Captured rows rows w r b →
      ∀ crc32c buf, r.encode crc32c w buf = Book.encode crc32c b buf := by
    rintro w r b ⟨hshows, hrows, hlevels⟩
    exact CowRoot.encode_eq hshows fun side => (hrows side).trans hlevels.symm
  obtain ⟨rs, w', bs, b', ew, eb, hm, hall⟩ | ⟨p, w', q, b', ew, eb⟩ :=
    serve_tracks calls nothing_lasting (h.knowing trivial) (by omega)
  · refine .inl ⟨rs, w', bs, b', ew, eb, ?_⟩
    exact List.rel_append (hall.imp fun _ _ => hencode) (.cons (hencode hm.captured) .nil)
  · exact .inr ⟨p, w', q, b', ew, eb⟩

/-- Any image is restored by both stores, or refused by both. -/
theorem restore_tracks (hchunk : 1 ≤ cfg.chunk) (hnew : newBook cfg = some g)
    (crc32c : List UInt8 → UInt32) (data : List UInt8) :
    (∃ g w, Snapshot.restore crc32c data cfg = .ok g ∧ CowSnapshot.restore crc32c data cfg = .ok w ∧
      ∃ levels, Mirrors cfg.levels levels (genIs 1) w g) ∨
    ∃ e e', Snapshot.restore crc32c data cfg = .error e ∧
      CowSnapshot.restore crc32c data cfg = .error e' := by
  obtain ⟨w₀, e₀, h₀⟩ := newCowBook_mirrors hchunk hnew
  unfold Snapshot.restore CowSnapshot.restore
  cases Snapshot.decodeHeader crc32c data with
  | error e => exact .inr ⟨e, e, rfl, rfl⟩
  | ok position =>
    have hmessage := @message_tracks True cfg.levels cfg.levels (genIs 1) data (data.length - 4)
      position cfg.cap
    simp only [hnew, e₀]
    dsimp only [bind, Except.bind]
    obtain ⟨_, w, g, ew, eg, h⟩ | ⟨e', w, e, g, ew, eg⟩ := Meets.cases hmessage True.intro h₀
    · left
      exact ⟨g, w, by rw [eg]; rfl, by rw [ew]; rfl, h⟩
    · right
      exact ⟨e, e', by rw [eg]; rfl, by rw [ew]; rfl⟩

end CowBook

end HiPerf.Go
