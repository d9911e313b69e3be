import HiPerf.Echo.Model

/-!
Where the bytes of a round trip are, and when the two sides of the echo can
block each other for good.
-/

namespace HiPerf.Echo

variable {cfg : Config} {s s' : Conn}

/-- What the server has read and not echoed. -/
def ServerPc.rest : ServerPc → List UInt8
  | .reading _ => []
  | .echoing buf off => buf.drop off
  | .ended => []

/-- What the client has of the echo. -/
def ClientPc.got : ClientPc → List UInt8
  | .writing _ => []
  | .reading recv _ => recv
  | .closed => []

/-- How much of the payload is written. -/
def ClientPc.sent (cfg : Config) : ClientPc → Nat
  | .writing off => off
  | .reading _ _ => cfg.send.length
  | .closed => 0

def ClientPc.Fine (cfg : Config) : ClientPc → Prop
  | .writing off => off < cfg.send.length
  | .reading recv _ => recv.length < cfg.send.length
  | .closed => True

def ServerPc.Fine : ServerPc → Prop
  | .reading _ => True
  | .echoing buf off => off < buf.length
  | .ended => True

/-- The bytes written in this round are, in order, at the client, on the way
back, at the server and on the way there. -/
structure Flows (cfg : Config) (s : Conn) : Prop where
  flow : s.client.got ++ s.down ++ s.server.rest ++ s.up = cfg.send.take (s.client.sent cfg)
  up_le : s.up.length ≤ cfg.upCap
  down_le : s.down.length ≤ cfg.downCap
  client : s.client.Fine cfg
  server : s.server.Fine
  open_of : s.server = .ended → s.client = .closed

/-- A round trip that is over has brought back every byte, as it was sent. -/
structure Clean (s s' : Conn) : Prop where
  ok : s'.results = s.results ++ [.ok ()]
  up : s'.up = []
  down : s'.down = []
  rest : s'.server.rest = []

theorem start_flows (cfg : Config) : Flows cfg cfg.start :=
  ⟨rfl, Nat.zero_le _, Nat.zero_le _, cfg.send_pos, trivial, nofun⟩

theorem write_eq_some {cap n : Nat} {queue rest queue' : List UInt8}
    (h : write cap queue rest n = some queue') :
    0 < n ∧ n ≤ rest.length ∧ queue.length + n ≤ cap ∧ queue' = queue ++ rest.take n := by
  rw [write] at h
  split at h
  case isTrue hroom =>
    cases h
    exact ⟨hroom.1, hroom.2.1, hroom.2.2, rfl⟩
  case isFalse => cases h

theorem readBounded_bytes {poll : Poll} {avail : List UInt8} {room n : Nat} {eof : Bool} {o : Outcome}
    (h : readBounded poll avail room eof o = some (.inr n)) :
    n ≤ avail.length ∧ (n = 0 → eof = true) := by
  cases o with
  | bytes m =>
    rw [readBounded] at h
    split at h
    case isTrue hroom =>
      cases h
      refine ⟨hroom.1, fun h0 => ?_⟩
      obtain hpos | ⟨-, heof⟩ := hroom.2.2
      · omega
      · exact heof
    case isFalse => cases h
  | wouldBlock => cases poll <;> cases h
  | interrupted => cases h

theorem Flows.serving (h : Flows cfg s) (hpc : s.client ≠ .closed) : s.server ≠ .ended :=
  fun he => hpc (h.open_of he)

theorem serverEnded_iff : s.serverEnded = true ↔ s.server = .ended := by
  rw [Conn.serverEnded]
  cases s.server <;> simp

theorem clientClosed_iff : s.clientClosed = true ↔ s.client = .closed := by
  rw [Conn.clientClosed]
  cases s.client <;> simp

/-- A round trip that reads its last byte returns `Ok`. -/
theorem finish_flows (hup : s.up = []) (hdown : s.down = []) (hrest : s.server.rest = [])
    (hfine : s.server.Fine) (hopen : s.server ≠ .ended) :
    Flows cfg (s.finish (.ok ())) ∧ Clean s (s.finish (.ok ())) := by
  refine ⟨⟨?_, ?_, ?_, ?_, hfine, fun h => absurd h hopen⟩, ⟨rfl, hup, hdown, hrest⟩⟩
  · simp only [Conn.finish, hup, hdown, hrest]
    split <;> rfl
  · exact hup ▸ Nat.zero_le _
  · exact hdown ▸ Nat.zero_le _
  · simp only [Conn.finish]
    split
    · exact cfg.send_pos
    · trivial

theorem received_flows (h : Flows cfg s) {recv : List UInt8} {poll : Poll}
    (hpc : s.client = .reading recv poll) {n : Nat} (hn : 0 < n) (hle : n ≤ s.down.length) :
    Flows cfg (cfg.received s recv n) ∧
      ((cfg.received s recv n).results = s.results ∨ Clean s (cfg.received s recv n)) := by
  have hflow := h.flow
  have hclient := h.client
  have hopen := h.serving (hpc ▸ nofun)
  rw [hpc, ClientPc.got, ClientPc.sent, List.take_length] at hflow
  rw [hpc] at hclient
  simp only [ClientPc.Fine] at hclient
  have hsplit : recv ++ s.down.take n ++ (s.down.drop n ++ (s.server.rest ++ s.up)) = cfg.send := by
    rw [← hflow, List.append_assoc, ← List.append_assoc (s.down.take n), List.take_append_drop]
    simp only [List.append_assoc]
  have hlen : (recv ++ s.down.take n).length = recv.length + n := by
    rw [List.length_append, List.length_take, Nat.min_eq_left hle]
  have hdown : (s.down.drop n).length ≤ cfg.downCap := by
    have := h.down_le
    rw [List.length_drop]
    omega
  rw [Config.received, if_neg (by omega)]
  split
  case isTrue hlt =>
    refine ⟨⟨?_, h.up_le, hdown, hlt, h.server, fun he => absurd he hopen⟩, .inl rfl⟩
    simp only [ClientPc.got, ClientPc.sent, List.take_length]
    rw [← hsplit]
    simp only [List.append_assoc]
  case isFalse hge =>
    have hnil : s.down.drop n ++ (s.server.rest ++ s.up) = [] := by
      have hsum := congrArg List.length hsplit
      rw [List.length_append] at hsum
      exact List.eq_nil_of_length_eq_zero (by omega)
    obtain ⟨hdrop, hnil⟩ := List.append_eq_nil_iff.mp hnil
    obtain ⟨hrest, hup⟩ := List.append_eq_nil_iff.mp hnil
    rw [hdrop, hrest, hup, List.append_nil, List.append_nil, List.append_nil] at hsplit
    have hend := @finish_flows cfg { s with down := s.down.drop n } hup hdrop hrest h.server hopen
    rw [if_pos hsplit]
    exact ⟨hend.1, .inr ⟨hend.2.ok, hend.2.up, hend.2.down, hend.2.rest⟩⟩

theorem roundTrip_flows (h : Flows cfg s) {o : Outcome} (hstep : cfg.roundTrip o s = some s') :
    Flows cfg s' ∧ (s'.results = s.results ∨ Clean s s') := by
  rw [Config.roundTrip] at hstep
  split at hstep
  case h_1 off hpc =>
    have hflow := h.flow
    have hclient := h.client
    rw [hpc] at hflow hclient
    simp only [ClientPc.got, ClientPc.sent, ClientPc.Fine] at hflow hclient
    have hopen := h.serving fun hc => by
      rw [hpc] at hc
      cases hc
    cases o with
    | bytes n =>
      obtain ⟨up, hwrite, rfl⟩ := Option.map_eq_some_iff.mp hstep
      obtain ⟨-, hn, hroom, rfl⟩ := write_eq_some hwrite
      rw [List.length_drop] at hn
      have hflow' : [] ++ s.down ++ s.server.rest ++ (s.up ++ (cfg.send.drop off).take n) =
          cfg.send.take (off + n) := by
        rw [← List.append_assoc, hflow, List.take_add]
      have hup : (s.up ++ (cfg.send.drop off).take n).length ≤ cfg.upCap := by
        rw [List.length_append, List.length_take, List.length_drop]
        omega
      refine ⟨⟨?_, hup, h.down_le, ?_, h.server, fun he => absurd he hopen⟩, .inl rfl⟩
      · split
        · exact hflow'
        · have hall : off + n = cfg.send.length := by omega
          rw [hall] at hflow'
          exact hflow'
      · split
        · exact ‹_›
        · exact cfg.send_pos
    | wouldBlock =>
      cases hstep
      exact ⟨h, .inl rfl⟩
    | interrupted =>
      cases hstep
      exact ⟨h, .inl rfl⟩
  case h_2 recv poll hpc =>
    have hopen := h.serving fun hc => by
      rw [hpc] at hc
      cases hc
    obtain ⟨r, hread, rfl⟩ := Option.map_eq_some_iff.mp hstep
    cases r with
    | inl poll' =>
      have hflow := h.flow
      have hclient := h.client
      rw [hpc] at hflow hclient
      exact ⟨⟨hflow, h.up_le, h.down_le, hclient, h.server, fun he => absurd he hopen⟩, .inl rfl⟩
    | inr n =>
      obtain ⟨hle, hpos⟩ := readBounded_bytes hread
      refine received_flows h hpc (Nat.pos_of_ne_zero fun h0 => ?_) hle
      exact hopen (serverEnded_iff.mp (hpos h0))
  case h_3 => cases hstep

theorem serveConn_flows (h : Flows cfg s) {o : Outcome} (hstep : cfg.serveConn o s = some s') :
    Flows cfg s' ∧ s'.results = s.results := by
  rw [Config.serveConn] at hstep
  have hflow := h.flow
  have hserver := h.server
  split at hstep
  case h_1 poll hpc =>
    rw [hpc, ServerPc.rest] at hflow
    obtain ⟨r, hread, rfl⟩ := Option.map_eq_some_iff.mp hstep
    cases r with
    | inl poll' =>
      exact ⟨⟨hflow, h.up_le, h.down_le, h.client, trivial, fun he => by cases he⟩, rfl⟩
    | inr n =>
      obtain ⟨hle, hpos⟩ := readBounded_bytes hread
      cases n with
      | zero =>
        exact ⟨⟨hflow, h.up_le, h.down_le, h.client, trivial,
          fun _ => clientClosed_iff.mp (hpos rfl)⟩, rfl⟩
      | succ n =>
        refine ⟨⟨?_, ?_, h.down_le, h.client, ?_, fun he => by cases he⟩, rfl⟩
        · change s.client.got ++ s.down ++ s.up.take (n + 1) ++ s.up.drop (n + 1) = _
          rw [List.append_nil] at hflow
          rw [List.append_assoc, List.take_append_drop]
          exact hflow
        · have := h.up_le
          simp only [List.length_drop]
          omega
        · simp only [ServerPc.Fine, List.length_take]
          omega
  case h_2 buf off hpc =>
    rw [hpc, ServerPc.rest] at hflow
    rw [hpc, ServerPc.Fine] at hserver
    cases o with
    | bytes n =>
      obtain ⟨down, hwrite, rfl⟩ := Option.map_eq_some_iff.mp hstep
      obtain ⟨-, hn, hroom, rfl⟩ := write_eq_some hwrite
      rw [List.length_drop] at hn
      have hrest : (if off + n < buf.length then ServerPc.echoing buf (off + n)
          else .reading (.polling 0)).rest = buf.drop (off + n) := by
        split
        · rfl
        · rw [ServerPc.rest, List.drop_eq_nil_of_le (by omega)]
      refine ⟨⟨?_, h.up_le, ?_, h.client, ?_, ?_⟩, rfl⟩
      · rw [hrest, ← hflow]
        simp only [List.append_assoc, List.append_cancel_left_eq]
        rw [← List.append_assoc, ← List.drop_drop, List.take_append_drop]
      · simp only [List.length_append, List.length_take, List.length_drop]
        omega
      · split
        · exact ‹_›
        · trivial
      · intro he
        split at he <;> cases he
    | wouldBlock =>
      cases hstep
      exact ⟨h, rfl⟩
    | interrupted =>
      cases hstep
      exact ⟨h, rfl⟩
  case h_3 => cases hstep

theorem step_flows (h : Flows cfg s) {turn : Turn} (hstep : step cfg turn s = some s') :
    Flows cfg s' ∧ (s'.results = s.results ∨ Clean s s') := by
  cases turn with
  | client o => exact roundTrip_flows h hstep
  | server o =>
    obtain ⟨h', hsame⟩ := serveConn_flows h hstep
    exact ⟨h', .inl hsame⟩

theorem Reachable.flows (h : Reachable cfg s) : Flows cfg s := by
  induction h with
  | start => exact start_flows cfg
  | next _ hstep ih => exact (step_flows ih hstep).1

theorem write_one {cap : Nat} {queue rest : List UInt8} (hrest : 0 < rest.length)
    (hroom : queue.length < cap) : write cap queue rest 1 = some (queue ++ rest.take 1) :=
  if_pos ⟨Nat.one_pos, hrest, hroom⟩

theorem readBounded_one {poll : Poll} {avail : List UInt8} {room : Nat} {eof : Bool}
    (havail : 0 < avail.length) (hroom : 0 < room) :
    readBounded poll avail room eof (.bytes 1) = some (.inr 1) :=
  if_pos ⟨havail, hroom, .inl Nat.one_pos⟩

/-- The server can move a byte but for a full way back, or nothing to read. -/
theorem server_moves (h : Flows cfg s) (hopen : s.server ≠ .ended)
    (hblocked : cfg.serveConn (.bytes 1) s = none) :
    (s.server.rest = [] ∧ s.up = []) ∨ (0 < s.server.rest.length ∧ s.down.length = cfg.downCap) := by
  rw [Config.serveConn] at hblocked
  split at hblocked
  case h_1 poll hpc =>
    refine .inl ⟨by rw [hpc]; rfl, ?_⟩
    by_contra hup
    simp only [readBounded_one (List.length_pos_iff.mpr hup) (by decide : 0 < CHUNK), Option.map_some,
      reduceCtorEq] at hblocked
  case h_2 buf off hpc =>
    have hserver := h.server
    rw [hpc, ServerPc.Fine] at hserver
    have hrest : 0 < (buf.drop off).length := by
      rw [List.length_drop]
      omega
    refine .inr ⟨by rw [hpc]; exact hrest, ?_⟩
    by_contra hfull
    simp only [write_one hrest (Nat.lt_of_le_of_ne h.down_le hfull), Option.map_some,
      reduceCtorEq] at hblocked
  case h_3 hpc => exact absurd hpc hopen

/-- A stuck client still writes, and every byte of room is taken. -/
theorem stuck_full (h : Flows cfg s) (hpc : s.client ≠ .closed) (hstuck : Stuck cfg s) :
    cfg.upCap + cfg.downCap + 2 ≤ cfg.send.length := by
  obtain ⟨hclient, hserver⟩ := hstuck 1 Nat.one_pos
  have hblocked := server_moves h (h.serving hpc) hserver
  have hflow := congrArg List.length h.flow
  have hfine := h.client
  simp only [List.length_append, List.length_take] at hflow
  rw [step, Config.roundTrip] at hclient
  split at hclient
  case h_1 off hpc =>
    rw [hpc] at hflow hfine
    simp only [ClientPc.got, ClientPc.sent, ClientPc.Fine, List.length_nil] at hflow hfine
    have hfull : s.up.length = cfg.upCap := by
      by_contra hroom
      have hrest : 0 < (cfg.send.drop off).length := by
        rw [List.length_drop]
        omega
      simp only [write_one hrest (Nat.lt_of_le_of_ne h.up_le hroom), Option.map_some,
        reduceCtorEq] at hclient
    have hpos := cfg.upCap_pos
    obtain ⟨-, hup⟩ | ⟨hrest, hdown⟩ := hblocked
    · rw [hup, List.length_nil] at hfull
      omega
    · omega
  case h_2 recv poll hpc =>
    rw [hpc] at hflow hfine
    simp only [ClientPc.got, ClientPc.sent, ClientPc.Fine] at hflow hfine
    have hdown : s.down.length = 0 := by
      by_contra hne
      simp only [readBounded_one (Nat.pos_of_ne_zero hne) (Nat.sub_pos_of_lt hfine), Option.map_some,
        reduceCtorEq] at hclient
    have hpos := cfg.downCap_pos
    obtain ⟨hrest, hup⟩ | ⟨-, hfull⟩ := hblocked
    · rw [hrest, hup, List.length_nil] at hflow
      omega
    · omega
  case h_3 hclosed => exact absurd hclosed hpc

/-- So much is echoed, and nothing is read by the client. -/
def echoed (cfg : Config) (i : Nat) : Conn :=
  { cfg.start with down := cfg.send.take i, client := .writing i }

/-- The server holds a byte that the way back has no room for, and `j` bytes wait for it. -/
def filling (cfg : Config) (j : Nat) : Conn :=
  { cfg.start with
    up := (cfg.send.drop (cfg.downCap + 1)).take j
    down := cfg.send.take cfg.downCap
    client := .writing (cfg.downCap + 1 + j)
    server := .echoing ((cfg.send.drop cfg.downCap).take 1) 0 }

theorem write_reaches (h : Reachable cfg s) {off : Nat} (hpc : s.client = .writing off)
    (hroom : s.up.length < cfg.upCap) (hoff : off + 1 < cfg.send.length) :
    Reachable cfg { s with
      up := s.up ++ (cfg.send.drop off).take 1
      client := .writing (off + 1) } := by
  refine h.next (?_ : step cfg (.client (.bytes 1)) s = some _)
  have hrest : 0 < (cfg.send.drop off).length := by
    rw [List.length_drop]
    omega
  simp only [step, Config.roundTrip, hpc, write_one hrest hroom, Option.map_some, if_pos hoff]

theorem read_reaches (h : Reachable cfg s) {poll : Poll} (hpc : s.server = .reading poll)
    (hup : 0 < s.up.length) :
    Reachable cfg { s with up := s.up.drop 1, server := .echoing (s.up.take 1) 0 } := by
  refine h.next (?_ : step cfg (.server (.bytes 1)) s = some _)
  simp only [step, Config.serveConn, hpc, readBounded_one hup (by decide : 0 < CHUNK), Option.map_some]

theorem echo_reaches (h : Reachable cfg s) {buf : List UInt8} (hpc : s.server = .echoing buf 0)
    (hbuf : buf.length = 1) (hroom : s.down.length < cfg.downCap) :
    Reachable cfg { s with down := s.down ++ buf, server := .reading (.polling 0) } := by
  refine h.next (?_ : step cfg (.server (.bytes 1)) s = some _)
  have htake : buf.take 1 = buf := List.take_of_length_le (Nat.le_of_eq hbuf)
  simp only [step, Config.serveConn, hpc, List.drop_zero, htake, hbuf,
    write_one (hbuf ▸ Nat.one_pos : 0 < buf.length) hroom, Option.map_some]
  rfl

/-- A byte goes from the client into the server's hands. -/
theorem hand_reaches (h : Reachable cfg s) (hup : s.up = []) {off : Nat}
    (hclient : s.client = .writing off) {poll : Poll} (hserver : s.server = .reading poll)
    (hoff : off + 1 < cfg.send.length) :
    ((cfg.send.drop off).take 1).length = 1 ∧ Reachable cfg { s with
      client := .writing (off + 1)
      server := .echoing ((cfg.send.drop off).take 1) 0 } := by
  obtain ⟨up, down, client, server, rounds, results⟩ := s
  cases hup
  cases hclient
  cases hserver
  have h₁ := write_reaches h rfl cfg.upCap_pos hoff
  have hlen : ((cfg.send.drop off).take 1).length = 1 := by
    rw [List.length_take, List.length_drop]
    omega
  obtain ⟨b, hb⟩ := List.length_eq_one_iff.mp hlen
  rw [hb] at h₁ ⊢
  exact ⟨rfl, read_reaches h₁ rfl Nat.one_pos⟩

theorem echoed_reachable (hlong : cfg.upCap + cfg.downCap + 2 ≤ cfg.send.length) {i : Nat}
    (hi : i ≤ cfg.downCap) : Reachable cfg (echoed cfg i) := by
  induction i with
  | zero => exact .start
  | succ i ih =>
    obtain ⟨hlen, h⟩ := hand_reaches (ih (by omega)) rfl rfl rfl (by omega)
    have hroom : (cfg.send.take i).length < cfg.downCap := by
      rw [List.length_take]
      omega
    have h' := echo_reaches h rfl hlen hroom
    have htake : cfg.send.take i ++ (cfg.send.drop i).take 1 = cfg.send.take (i + 1) :=
      List.take_add.symm
    rw [echoed, ← htake]
    exact h'

theorem filling_reachable (hlong : cfg.upCap + cfg.downCap + 2 ≤ cfg.send.length) {j : Nat}
    (hj : j ≤ cfg.upCap) : Reachable cfg (filling cfg j) := by
  induction j with
  | zero =>
    exact (hand_reaches (echoed_reachable hlong (Nat.le_refl _)) rfl rfl rfl (by omega)).2
  | succ j ih =>
    have hroom : ((cfg.send.drop (cfg.downCap + 1)).take j).length < cfg.upCap := by
      rw [List.length_take]
      omega
    have h := write_reaches (ih (by omega)) rfl hroom (by omega)
    have htake : (cfg.send.drop (cfg.downCap + 1)).take j ++
        (cfg.send.drop (cfg.downCap + 1 + j)).take 1 =
        (cfg.send.drop (cfg.downCap + 1)).take (j + 1) := by
      rw [List.take_add, List.drop_drop]
    rw [filling, ← htake]
    exact h

theorem write_full {cap n : Nat} {queue rest : List UInt8} (hfull : queue.length = cap) (hn : 0 < n) :
    write cap queue rest n = none :=
  if_neg fun h => by omega

theorem filling_stuck (hlong : cfg.upCap + cfg.downCap + 2 ≤ cfg.send.length) :
    Stuck cfg (filling cfg cfg.upCap) := by
  intro n hn
  have hup : ((cfg.send.drop (cfg.downCap + 1)).take cfg.upCap).length = cfg.upCap := by
    rw [List.length_take, List.length_drop]
    omega
  have hdown : (cfg.send.take cfg.downCap).length = cfg.downCap := by
    rw [List.length_take]
    omega
  simp only [step, filling, Config.roundTrip, Config.serveConn, write_full hup hn,
    write_full hdown hn, Option.map_none, and_self]

/-- A round trip that is over has returned `Ok` and left nothing behind, and the
two sides can always go on exactly when the payload is at most one byte longer
than both directions hold. -/
theorem echo_progress (cfg : Config) :
    (∀ s s' turn, Reachable cfg s → step cfg turn s = some s' → s'.results ≠ s.results →
      Clean s s') ∧
    ((∀ s, Reachable cfg s → s.client ≠ .closed → ¬ Stuck cfg s) ↔
      cfg.send.length ≤ cfg.upCap + cfg.downCap + 1) := by
  refine ⟨fun s s' turn h hstep hne => ?_, fun h => ?_, fun hshort s h hpc hstuck => ?_⟩
  · exact (step_flows h.flows hstep).2.resolve_left hne
  · by_contra hlong
    exact h _ (filling_reachable (by omega) (Nat.le_refl _)) nofun (filling_stuck (by omega))
  · have hfull := stuck_full h.flows hpc hstuck
    omega

/-- A payload of four bytes, and room for one in either direction. -/
def narrow : Config := ⟨[1, 2, 3, 4], 0, 1, 1, 1, by decide, by decide, by decide, by decide⟩

theorem narrow_stuck : ∃ s, Reachable narrow s ∧ s.client ≠ .closed ∧ Stuck narrow s :=
  ⟨filling narrow 1, filling_reachable (by decide) (by decide), nofun, filling_stuck (by decide)⟩

end HiPerf.Echo
