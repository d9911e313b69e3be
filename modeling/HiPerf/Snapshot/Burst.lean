import HiPerf.Lib.Crc
import HiPerf.Snapshot.Head
import HiPerf.Snapshot.Restart

/-!
What the checksum of an image keeps out. Both decoders compare it before they
read anything else.
-/

namespace HiPerf

open Machine Exec Bytes

/-- The first `len` bytes of what one of the encoders returned. -/
def IsImage (image : List UInt8) : Prop :=
  (∃ (b : Book) (buf data : List UInt8) (len : Nat),
    b.encode crc32c buf = .ok (data, len) ∧ image = data.take len) ∨
  ∃ (r : Root) (mem : RootRead → Memory) (buf data : List UInt8) (len : Nat),
    encodeRoot crc32c r mem buf = .ok (data, len) ∧ image = data.take len

/-- An image is a message and the checksum of that message. -/
theorem IsImage.sealed {image : List UInt8} (h : IsImage image) :
    ∃ body, image = body ++ le 4 (crc32c body).toNat := by
  obtain ⟨b, buf, data, len, e, rfl⟩ | ⟨r, mem, buf, data, len, e, rfl⟩ := h
  · obtain ⟨body, e, -⟩ := Encoder.encode_head e
    exact ⟨body, e⟩
  · obtain ⟨body, e, -⟩ := Encoder.encode_head e
    exact ⟨body, e⟩

/-- Nothing passes the comparison that is an image but for one burst, the lowest bit of each
byte first. -/
theorem Decoder.checked_burst {body : List UInt8} {image : List UInt8}
    (hlen : image.length = body.length + 4) (hne : image ≠ body ++ le 4 (crc32c body).toNat) {k : Nat}
    (hburst : ∀ i, (bits image)[i]? ≠ (bits (body ++ le 4 (crc32c body).toNat))[i]? →
      k ≤ i ∧ i < k + 32) :
    checked crc32c image = .error (.err "crc32c mismatch") := by
  have hsplit := List.take_append_drop (image.length - 4) image
  have ht : (image.drop (image.length - 4)).length = 4 := by
    rw [List.length_drop]
    omega
  have hbody : (image.take (image.length - 4)).length = body.length := by
    rw [List.length_take]
    omega
  have hown : (crc32c body).toNat = unle (le 4 (crc32c body).toNat) :=
    (unle_le_of_lt (crc32c body).toNat_lt).symm
  rw [checked, if_neg (by omega), if_pos]
  · rfl
  · intro hpass
    refine hne (hsplit.symm.trans (crc32c_burst ht (le_length _ _) hbody hpass hown (k := k) ?_))
    rw [hsplit]
    exact hburst

/-- An image with a change confined to 32 consecutive bits, the lowest bit of each byte first
as the checksum takes them, is refused by both decoders under any configuration. -/
theorem burst_rejected {image changed : List UInt8} (himage : IsImage image)
    (hlen : changed.length = image.length) (hne : changed ≠ image) {k : Nat}
    (hburst : ∀ i, (bits changed)[i]? ≠ (bits image)[i]? → k ≤ i ∧ i < k + 32) (cfg : SmrConfig) :
    Book.restore crc32c changed cfg = .error (.err "crc32c mismatch") ∧
      restoreCow crc32c changed cfg = .error (.err "crc32c mismatch") := by
  obtain ⟨body, rfl⟩ := himage.sealed
  rw [List.length_append, le_length] at hlen
  have h := Decoder.checked_burst hlen hne hburst
  rw [Book.restore, restoreCow, h]
  exact ⟨rfl, rfl⟩

/-- Other bytes in the place of at most four. -/
theorem bits_replaced {pre u v post : List UInt8} (hu : u.length ≤ 4) (hlen : u.length = v.length)
    {i : Nat} (hne : (bits (pre ++ (u ++ post)))[i]? ≠ (bits (pre ++ (v ++ post)))[i]?) :
    8 * pre.length ≤ i ∧ i < 8 * pre.length + 32 := by
  simp only [bits_append, List.getElem?_append, bits_length, ← hlen] at hne
  by_cases hlo : i < 8 * pre.length
  · simp only [if_pos hlo, ne_eq, not_true] at hne
  simp only [if_neg hlo] at hne
  by_cases hhi : i - 8 * pre.length < 8 * u.length
  · omega
  · simp only [if_neg hhi, ne_eq, not_true] at hne

theorem byte_flipped (a : UInt8) : a ^^^ 0xFF ≠ a := by
  intro h
  have hxor := congrArg (a ^^^ ·) h
  rw [← UInt8.xor_assoc, UInt8.xor_self, UInt8.zero_xor] at hxor
  exact absurd hxor (by decide)

/-- The last thirty-two bits of the last order in the image of a book that holds orders. -/
theorem burst_rejected_smallRun : ∃ b data len pre u post,
    Book.run smallRun (Book.new smallBook) = .ok () b ∧ b.hwm = 3 ∧
    b.encode crc32c (List.replicate b.source.room 0) = .ok (data, len) ∧
    data.take len = pre ++ (u ++ post) ∧ 52 ≤ pre.length ∧ u.length = 4 ∧ post.length = 4 ∧
    Book.restore crc32c (pre ++ (u.map (· ^^^ 0xFF) ++ post)) smallBook =
      .error (.err "crc32c mismatch") ∧
    restoreCow crc32c (pre ++ (u.map (· ^^^ 0xFF) ++ post)) smallBook =
      .error (.err "crc32c mismatch") := by
  obtain ⟨hruns, ⟨q, fl, hrep, -, hle⟩, -⟩ := Book.run_holds smallBook_ok rfl
    (Book.new_holds smallBook_ok) smallRun_wellFormed smallRun_fits
  obtain ⟨b, eb, hb⟩ := hruns _ (Book.new_shows smallBook)
  have hmark : ((Book.new smallBook).view.steps smallRun).hwm = 3 := by decide
  obtain ⟨data, e, hdata⟩ := Encoder.encode_ok crc32c (Book.source_readable hb hrep hle)
    (Book.noEmptyGroup hb hrep (by omega))
    (Nat.le_of_eq (List.length_replicate (a := (0 : UInt8))).symm)
  have himage : IsImage _ := .inl ⟨b, _, data, _, e, rfl⟩
  have hwidth := (bytes_length b.source.image.fields).trans (Image.width_fields _)
  rw [hdata, Encoder.sealed] at himage
  rw [Encoder.sealed] at hdata
  generalize bytes b.source.image.fields = body at himage hdata hwidth
  have hu : (body.drop (body.length - 4)).length = 4 := by
    rw [List.length_drop]
    omega
  have hsplit : body ++ le 4 (crc32c body).toNat = body.take (body.length - 4) ++
      (body.drop (body.length - 4) ++ le 4 (crc32c body).toNat) := by
    rw [← List.append_assoc, List.take_append_drop]
  generalize body.drop (body.length - 4) = u at hu hsplit
  rw [hsplit] at himage hdata
  refine ⟨b, data, _, _, u, _, eb, hb.hwm_eq.trans hmark, e, hdata, ?_, hu, le_length _ _, ?_⟩
  · rw [List.length_take]
    omega
  refine burst_rejected himage ?_ (fun h => ?_) (fun i hi =>
    bits_replaced (by rw [List.length_map, hu]) (List.length_map _) hi) smallBook
  · simp only [List.length_append, List.length_map]
  · have hmap := List.append_cancel_right (List.append_cancel_left h)
    cases u with
    | nil => cases hu
    | cons a u => exact byte_flipped a (List.cons.inj hmap).1

end HiPerf
