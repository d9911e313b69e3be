import HiPerf.Serial.Clipped
import HiPerf.Serial.Truncated

/-!
When the two codecs of the journal measure a record whole.
-/

namespace HiPerf.Serial

/-- The flyweight codec stops, or the checksum does not see where its texts were cut; the
checksum does not see what the struct codec cut off, where the lengths of the texts fit
their 32 bits. -/
theorem measured_whole_iff (r : JournalRecord) (scratch : List UInt8) :
    (SBECodec.Sound r scratch ↔
      (SBECodec.Accepts r scratch.length → checksumRecord r.clip = checksumRecord r)) ∧
    ((∀ e ∈ r.entries, e.cmdText.length < 4294967296) → (SBEStructCodec.Sound r scratch ↔
      checksumRecord (r.kept scratch.length) = checksumRecord r)) :=
  ⟨SBECodec.sound_iff, SBEStructCodec.sound_iff⟩

/-- A record of one entry, all its numbers zero. -/
def ofText (b : List UInt8) : JournalRecord where
  leadershipTermId := 0
  logPosition := 0
  timestamp := 0
  clusterSessionId := 0
  correlationId := 0
  leaderMemberId := 0
  serviceId := 0
  eventType := 0
  flags := 0
  entries := [⟨0, 0, 0, 0, 0, 0, false, b⟩]

theorem ofText_kept {b : List UInt8} {n : Nat} (hn : 111 ≤ n) :
    (ofText b).kept n = ofText (b.take (n - 111) ++ List.replicate (b.length - (n - 111)) 0) := by
  have hsub : n - 62 - 49 = n - 111 := by omega
  simp only [JournalRecord.kept, ofText, List.length_singleton, Nat.reduceMod, List.take_succ_cons,
    List.take_nil, keptEntries, Entry.kept, hsub, ite_self, if_pos (show 62 ≤ n by omega),
    if_pos (show 49 ≤ n - 62 by omega)]

/-- A buffer with room for one byte of a text of two: a zero is read for the other. -/
theorem measured_whole_cut : SBEStructCodec.Sound (ofText [0x41, 0]) (List.replicate 112 0) ∧
    ¬ SBEStructCodec.Sound (ofText [0x41, 0x42]) (List.replicate 112 0) := by
  have hiff : ∀ x, SBEStructCodec.Sound (ofText [0x41, x]) (List.replicate 112 0) ↔
      checksumRecord (ofText [0x41, 0]) = checksumRecord (ofText [0x41, x]) := by
    intro x
    have htext : ∀ e ∈ (ofText [0x41, x]).entries, e.cmdText.length < 4294967296 := by
      intro e he
      rw [List.mem_singleton.mp he]
      change 2 < 4294967296
      decide
    have h := (measured_whole_iff (ofText [0x41, x]) (List.replicate 112 0)).2 htext
    rwa [List.length_replicate, ofText_kept (by decide)] at h
  exact ⟨(hiff 0).mpr rfl, fun h => absurd ((hiff 0x42).mp h) (by decide)⟩

theorem Checksum.step_injective (c : Checksum) {v v' : UInt64} (h : step c v = step c v') :
    v = v' := by
  have hinv : (0x100000001B3 * 0xCE965057AFF6957B : UInt64) = 1 := by decide
  have hmul := congrArg (· * 0xCE965057AFF6957B) h
  simp only [step, UInt64.mul_assoc, hinv, UInt64.mul_one] at hmul
  have hxor := congrArg (c ^^^ ·) hmul
  simpa only [← UInt64.xor_assoc, UInt64.xor_self, UInt64.zero_xor] using hxor

/-- Texts of one length that differ in their last byte only. -/
theorem Checksum.addStr_concat_injective (c : Checksum) {b : List UInt8} {x x' : UInt8}
    (h : addStr c (b ++ [x]) = addStr c (b ++ [x'])) : x = x' := by
  simp only [addStr, List.length_append, List.length_singleton, List.foldl_append, List.foldl_cons,
    List.foldl_nil] at h
  exact UInt8.toUInt64_inj.mp (step_injective _ h)

/-- The struct codec loses the last byte of a text one byte longer than its buffer has room
for, and measures the rest. -/
theorem last_byte_lost {b : List UInt8} {x : UInt8} {scratch : List UInt8}
    (hfull : scratch.length = 111 + b.length) (hlen : b.length + 1 < 4294967296) (hx : x ≠ 0) :
    ¬ SBEStructCodec.Sound (ofText (b ++ [x])) scratch := by
  have htext : ∀ e ∈ (ofText (b ++ [x])).entries, e.cmdText.length < 4294967296 := by
    intro e he
    rw [List.mem_singleton.mp he]
    simpa using hlen
  intro hsound
  have hsame := (SBEStructCodec.sound_iff htext).mp hsound
  have hkept : (b ++ [x]).take (111 + b.length - 111) ++
      List.replicate ((b ++ [x]).length - (111 + b.length - 111)) 0 = b ++ [0] := by
    rw [Nat.add_sub_cancel_left, List.take_left, List.length_append, Nat.add_sub_cancel_left]
    rfl
  rw [hfull, ofText_kept (by omega), hkept] at hsame
  have hadd : ∃ c : Checksum, c.addStr (b ++ [0]) = c.addStr (b ++ [x]) := ⟨_, hsame⟩
  obtain ⟨c, hc⟩ := hadd
  exact hx (c.addStr_concat_injective hc).symm

end HiPerf.Serial
