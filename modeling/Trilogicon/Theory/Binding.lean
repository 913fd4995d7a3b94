import Trilogicon.Core.DataDirBind
import Trilogicon.Core.Wire
import Trilogicon.Theory.Chain
import Trilogicon.Theory.Ledger

/-!
# What the Genesis Commitment Binds

Two nodes take each other, and a node takes its data directory, if the genesis
commitments agree. What that says about the two account tables at height zero.

Both checks compare the hexadecimal commitments and nothing else, so with a
hash that does not collide they compare the texts that are hashed. A text joins
lines `address|balance` by line breaks. A balance holds digits only, so a line
can be taken apart at its last `|`, whatever the address holds. The lines cannot
be taken apart if addresses hold line breaks: `"a|1⏎b"` with balance `2` gives
the text of `"a"` with `1` and `"b"` with `2`. Two documents with one text are
the same exactly if their addresses, in order, hold the same numbers of line
breaks.

## Main definitions

* `sessionPayload`: A session frame, as it is sent.
* `HandshakeCompletes`: Two nodes complete the handshake with each other.
* `lineBreaks`: The number of line breaks in each address.

## Theorems

* `decodeSessionPayload_sessionPayload`: A session frame is read back.
* `handshakeCompletes_iff`: A handshake completes if the commitments agree.
* `pairs_eq_iff_of_preimage`: When one text means one list of allocations.
* `fromGenesis_eq_iff`: The table at height zero determines the allocations.
* `commitment_binds_iff`: What handshake and binding say about the tables.
-/

namespace Trilogicon

/-! ### Sessions -/

/-- A session frame: opcode, version, commitment and height. -/
def sessionPayload (opcode : UInt8) (version : UInt16) (hex : String) (h : UInt64) : Bytes :=
  opcode :: beBytes 2 version.toNat ++ beBytes 2 (utf8 hex).length ++ utf8 hex ++ beBytes 8 h.toNat

theorem decodeSessionPayload_sessionPayload (opcode : UInt8) (version : UInt16) {hex : String}
    (h : UInt64) (hlen : (utf8 hex).length ≤ maxSessionCommitmentBytes) :
    decodeSessionPayload (sessionPayload opcode version hex h) = .ok (opcode, version, hex, h) := by
  -- The fields stand one after the other, each of a known length.
  have hlength : (sessionPayload opcode version hex h).length = 5 + (utf8 hex).length + 8 := by
    simp only [sessionPayload, List.length_append, List.length_cons, beBytes_length]
  -- What stands behind the opcode, the version and the length.
  have hdrop1 : (sessionPayload opcode version hex h).drop 1 = beBytes 2 version.toNat ++
      (beBytes 2 (utf8 hex).length ++ (utf8 hex ++ beBytes 8 h.toNat)) := by
    simp only [sessionPayload, List.cons_append, List.append_assoc, List.drop_succ_cons,
      List.drop_zero]
  have hdrop3 : (sessionPayload opcode version hex h).drop 3 =
      beBytes 2 (utf8 hex).length ++ (utf8 hex ++ beBytes 8 h.toNat) := by
    rw [show 3 = 1 + 2 from rfl, ← List.drop_drop, hdrop1, List.drop_left' (beBytes_length 2 _)]
  have hdrop5 : (sessionPayload opcode version hex h).drop 5 = utf8 hex ++ beBytes 8 h.toNat := by
    rw [show 5 = 3 + 2 from rfl, ← List.drop_drop, hdrop3, List.drop_left' (beBytes_length 2 _)]
  -- So each field is read where it was written.
  have hword : ofBe (((sessionPayload opcode version hex h).drop 3).take 2) =
      (utf8 hex).length := by
    rw [hdrop3, List.take_left' (beBytes_length 2 _)]
    refine ofBe_beBytes_of_lt ?_
    unfold maxSessionCommitmentBytes at hlen
    omega
  have hversion : UInt16.ofNat (ofBe (((sessionPayload opcode version hex h).drop 1).take 2)) =
      version := by
    rw [hdrop1, List.take_left' (beBytes_length 2 _), ofBe_beBytes_of_lt version.toNat_lt,
      UInt16.ofNat_toNat]
  have hheight : UInt64.ofNat (ofBe (((sessionPayload opcode version hex h).drop
      (5 + (utf8 hex).length)).take 8)) = h := by
    rw [← List.drop_drop, hdrop5, List.drop_left, List.take_of_length_le (beBytes_length 8 _).le,
      ofBe_beBytes_of_lt h.toNat_lt, UInt64.ofNat_toNat]
  rw [decodeSessionPayload, if_neg (by omega)]
  simp only [hword]
  rw [if_neg (by omega), if_neg (by omega), hdrop5, List.take_left, fromUtf8_utf8]
  simp only [hversion, hheight]
  rw [if_neg (by omega)]
  rfl

section Session

variable [Primitives]

/-- A commitment is as long as a digest in hexadecimal. -/
theorem stateCommitmentHex_length {g : Genesis} {hex : String}
    (h : g.stateCommitmentHex = .ok hex) : (utf8 hex).length = 64 := by
  rcases (Genesis.stateCommitmentHex_ok_iff g hex).mp h with ⟨ps, _, rfl⟩
  exact Crypto.hashBytes_byteLength _

theorem encodeSessionPayload_ok_iff {opcode : UInt8} {g : Genesis} {h : UInt64} {frame : Bytes} :
    encodeSessionPayload opcode g h = .ok frame ↔ ∃ hex, g.stateCommitmentHex = .ok hex ∧
      frame = sessionPayload opcode trilWireProtocolVersion hex h := by
  simp only [encodeSessionPayload, bind_ok_iff, mapError_ok_iff, ite_error_ok_iff, not_lt,
    Except.ok.injEq]
  constructor
  · rintro ⟨hex, hhex, _, rfl⟩
    exact ⟨hex, hhex, rfl⟩
  · rintro ⟨hex, hhex, rfl⟩
    refine ⟨hex, hhex, ?_, rfl⟩
    rw [stateCommitmentHex_length hhex]
    decide

/-- A node takes the frame of another node if the commitments agree. -/
theorem checkSessionPeer_ok_iff {opcode : UInt8} {wrongOpcode : UInt8 → String} {g g' : Genesis}
    {h : UInt64} {frame : Bytes} (hframe : encodeSessionPayload opcode g h = .ok frame) :
    checkSessionPeer opcode wrongOpcode g' frame = .ok () ↔
      g'.stateCommitmentHex = g.stateCommitmentHex := by
  rcases encodeSessionPayload_ok_iff.mp hframe with ⟨hex, hhex, rfl⟩
  have hlen : (utf8 hex).length ≤ maxSessionCommitmentBytes := by
    rw [stateCommitmentHex_length hhex]
    decide
  -- The opcode and the version are as expected, which leaves the commitment.
  simp only [checkSessionPeer, decodeSessionPayload_sessionPayload _ _ _ hlen, bind_ok_iff,
    mapError_ok_iff, ite_error_ok_iff, Except.ok.injEq, Prod.exists, Prod.mk.injEq]
  rw [hhex]
  constructor
  · rintro ⟨_, _, _, _, ⟨rfl, rfl, rfl, rfl⟩, _, _, hex', hg', hsame, _⟩
    rw [hg', not_not.mp hsame]
  · intro hg'
    exact ⟨_, _, _, _, ⟨rfl, rfl, rfl, rfl⟩, by simp only [ne_eq, not_true_eq_false,
      not_false_eq_true], by simp only [ne_eq, not_true_eq_false, not_false_eq_true], hex, hg',
      by simp only [ne_eq, not_true_eq_false, not_false_eq_true], trivial⟩

/-- Every session frame fits the wire. -/
theorem encodeSessionPayload_fits {opcode : UInt8} {g : Genesis} {h : UInt64} {frame : Bytes}
    (hframe : encodeSessionPayload opcode g h = .ok frame) :
    frame.length ≤ maxWireFrameBytes := by
  rcases encodeSessionPayload_ok_iff.mp hframe with ⟨hex, hhex, rfl⟩
  simp only [sessionPayload, List.length_append, List.length_cons, beBytes_length,
    stateCommitmentHex_length hhex]
  decide

theorem handshakeInitiator_ok_iff {s s' : Stream} {g : Genesis} {h : UInt64} :
    handshakeInitiator s g h = (.ok (), s') ↔
      ∃ hello s₁ resp, encodeSessionPayload opSessionHello g h = .ok hello ∧
        writeFramed s hello = (.ok (), s₁) ∧ readFramed s₁ = (.ok resp, s') ∧
          checkSessionPeer opSessionHelloAck (fun op =>
            "[peer] disconnecting: expected session HELLO_ACK, got opcode " ++ op.toNat.repr) g
            resp = .ok () := by
  simp only [handshakeInitiator, attempt_ok_iff, mapError_ok_iff, andThen_ok_iff, Prod.mk.injEq]
  constructor
  · rintro ⟨hello, hhello, _, s₁, hwrite, resp, _, hread, hcheck, rfl⟩
    exact ⟨hello, s₁, resp, hhello, hwrite, hread, hcheck⟩
  · rintro ⟨hello, s₁, resp, hhello, hwrite, hread, hcheck⟩
    exact ⟨hello, hhello, (), s₁, hwrite, resp, s', hread, hcheck, rfl⟩

theorem handshakeResponder_ok_iff {s s' : Stream} {g : Genesis} {h : UInt64} :
    handshakeResponder s g h = (.ok (), s') ↔
      ∃ frame s₁ ack, readFramed s = (.ok frame, s₁) ∧
        checkSessionPeer opSessionHello (fun op =>
          "[peer] disconnecting: expected session HELLO (op " ++ opSessionHello.toNat.repr ++
            ") as first frame, got opcode " ++ op.toNat.repr) g frame = .ok () ∧
        encodeSessionPayload opSessionHelloAck g h = .ok ack ∧
        writeFramed s₁ ack = (.ok (), s') := by
  simp only [handshakeResponder, attempt_ok_iff, mapError_ok_iff, andThen_ok_iff]
  constructor
  · rintro ⟨frame, s₁, hread, _, hcheck, ack, hack, hwrite⟩
    exact ⟨frame, s₁, ack, hread, hcheck, hack, hwrite⟩
  · rintro ⟨frame, s₁, ack, hread, hcheck, hack, hwrite⟩
    exact ⟨frame, s₁, hread, (), hcheck, ack, hack, hwrite⟩

/-- The initiator is content with the ACK of a node with its commitment, on a
    connection that takes everything. -/
theorem handshakeInitiator_of_ack {s : Stream} {g g' : Genesis} {h' : UInt64} {ack rest : Bytes}
    (hack : encodeSessionPayload opSessionHelloAck g' h' = .ok ack)
    (hsame : g.stateCommitmentHex = g'.stateCommitmentHex) (hw : s.writes = [])
    (hin : s.incoming = frameOnWire ack ++ rest) (h : UInt64) :
    ∃ sent, handshakeInitiator s g h = (.ok (), { s with incoming := rest, sent := sent }) := by
  rcases encodeSessionPayload_ok_iff.mp hack with ⟨hex, hhex, _⟩
  have hhello : encodeSessionPayload opSessionHello g h = .ok _ :=
    encodeSessionPayload_ok_iff.mpr ⟨hex, hsame.trans hhex, rfl⟩
  refine ⟨_, handshakeInitiator_ok_iff.mpr ⟨_, _, ack, hhello,
    writeFramed_of_writes_nil (encodeSessionPayload_fits hhello) hw,
    readFramed_ok_iff.mpr ⟨encodeSessionPayload_fits hack, rest, hin, rfl⟩,
    (checkSessionPeer_ok_iff hack).mpr hsame⟩⟩

/-- Two nodes complete the handshake with each other: both sides return `Ok` on
    a new connection on which each reads first what the other sent. -/
def HandshakeCompletes (g₁ g₂ : Genesis) : Prop :=
  ∃ a a' b b' h₁ h₂, handshakeInitiator a g₁ h₁ = (.ok (), a') ∧
    handshakeResponder b g₂ h₂ = (.ok (), b') ∧ a.sent = [] ∧ b.sent = [] ∧
      a'.sent <+: b.incoming ∧ b'.sent <+: a.incoming

/-- Two nodes complete the handshake exactly if they have the same
    commitment. -/
theorem handshakeCompletes_iff {g₁ g₂ : Genesis} :
    HandshakeCompletes g₁ g₂ ↔
      ∃ hex, g₁.stateCommitmentHex = .ok hex ∧ g₂.stateCommitmentHex = .ok hex := by
  constructor
  · rintro ⟨a, a', b, b', h₁, h₂, ha, hb, hfresh, _, ⟨rest, hin⟩, _⟩
    rcases handshakeInitiator_ok_iff.mp ha with ⟨hello, a₁, resp, hhello, hwrite, hread, _⟩
    rcases handshakeResponder_ok_iff.mp hb with ⟨frame, b₁, _, hread', hcheck, _, _⟩
    rcases writeFramed_ok hwrite with ⟨hmax, hsent, _, _⟩
    rcases (readFramed_ok_iff.mp hread).2 with ⟨_, _, ha'⟩
    -- The responder read the HELLO of the initiator.
    have hgot : readFramed b = (.ok hello, { b with incoming := rest }) := by
      refine readFramed_ok_iff.mpr ⟨hmax, rest, ?_, rfl⟩
      rw [← hin, ha', hsent, hfresh, List.nil_append]
    rw [hgot, Prod.mk.injEq, Except.ok.injEq] at hread'
    rw [← hread'.1, checkSessionPeer_ok_iff hhello] at hcheck
    rcases encodeSessionPayload_ok_iff.mp hhello with ⟨hex, hhex, _⟩
    exact ⟨hex, hhex, hcheck.trans hhex⟩
  · rintro ⟨hex, hhex₁, hhex₂⟩
    have hhello : encodeSessionPayload opSessionHello g₁ 0 = .ok _ :=
      encodeSessionPayload_ok_iff.mpr ⟨hex, hhex₁, rfl⟩
    have hack : encodeSessionPayload opSessionHelloAck g₂ 0 = .ok _ :=
      encodeSessionPayload_ok_iff.mpr ⟨hex, hhex₂, rfl⟩
    -- Each side finds its own commitment in the frame of the other.
    have hsame : g₂.stateCommitmentHex = g₁.stateCommitmentHex := hhex₂.trans hhex₁.symm
    generalize sessionPayload opSessionHello trilWireProtocolVersion hex 0 = hello at hhello
    generalize sessionPayload opSessionHelloAck trilWireProtocolVersion hex 0 = ack at hack
    refine ⟨⟨frameOnWire ack, .other "", [], []⟩, ⟨[], .other "", [], frameOnWire hello⟩,
      ⟨frameOnWire hello, .other "", [], []⟩, ⟨[], .other "", [], frameOnWire ack⟩, 0, 0,
      handshakeInitiator_ok_iff.mpr ⟨hello, _, ack, hhello,
        writeFramed_of_writes_nil (encodeSessionPayload_fits hhello) rfl,
        readFramed_ok_iff.mpr ⟨encodeSessionPayload_fits hack, [], (List.append_nil _).symm, rfl⟩,
        (checkSessionPeer_ok_iff hack).mpr hsame.symm⟩,
      handshakeResponder_ok_iff.mpr ⟨hello, _, ack,
        readFramed_ok_iff.mpr ⟨encodeSessionPayload_fits hhello, [], (List.append_nil _).symm,
          rfl⟩, (checkSessionPeer_ok_iff hhello).mpr hsame, hack,
        writeFramed_of_writes_nil (encodeSessionPayload_fits hack) rfl⟩,
      rfl, rfl, List.prefix_refl _, List.prefix_refl _⟩

end Session

/-! ### The text -/

namespace Genesis

/-- The number of line breaks in each address. -/
def lineBreaks (ps : List (Address × UInt64)) : List Nat :=
  ps.map fun p => p.1.value.toList.count '\n'

/-- A line is taken apart at its last bar: a balance holds digits only. -/
theorem commitmentLine_inj {p q : Address × UInt64} (h : commitmentLine p = commitmentLine q) :
    p = q := by
  rcases append_sep_inj_right (notMem_repr _ (by decide)) (notMem_repr _ (by decide)) h with
    ⟨hadr, hbal⟩
  have hvalue : p.1.value = q.1.value := String.toList_inj.mp hadr
  exact Prod.ext (congrArg Address.mk hvalue) (UInt64.toNat_inj.mp (repr_toList_inj hbal))

/-- The line breaks of a line are those of its address. -/
theorem count_commitmentLine (p : Address × UInt64) :
    (commitmentLine p).count '\n' = p.1.value.toList.count '\n' := by
  rw [commitmentLine, List.count_append, List.count_cons_of_ne (by decide),
    List.count_eq_zero_of_not_mem (notMem_repr _ (by decide)), Nat.add_zero]

/-- Allocations with one text are the same exactly if their addresses hold, one
    by one, the same numbers of line breaks. -/
theorem pairs_eq_iff_of_preimage {ps qs : List (Address × UInt64)}
    (h : commitmentPreimage ps = commitmentPreimage qs) :
    ps = qs ↔ lineBreaks ps = lineBreaks qs := by
  refine ⟨congrArg lineBreaks, ?_⟩
  intro hbreaks
  have hcount : ∀ rs : List (Address × UInt64),
      (rs.map commitmentLine).map (List.count '\n') = lineBreaks rs := by
    intro rs
    rw [List.map_map, lineBreaks]
    exact List.map_congr_left fun p _ => count_commitmentLine p
  have hlines := joinWith_inj (by rw [hcount, hcount, hbreaks]) (String.ofList_injective h)
  exact List.map_injective_iff.mpr (fun _ _ => commitmentLine_inj) hlines

/-- Only the empty list has the empty text: a line holds a bar. -/
theorem preimage_eq_nil_iff {ps : List (Address × UInt64)} :
    commitmentPreimage ps = commitmentPreimage [] ↔ ps = [] := by
  refine ⟨fun h => ?_, congrArg commitmentPreimage⟩
  have htext := String.ofList_injective h
  cases ps with
  | nil => rfl
  | cons p ps =>
      have hlen := congrArg List.length htext
      cases ps with
      | nil =>
          simp only [List.map_cons, List.map_nil, joinWith, commitmentLine, List.length_append,
            List.length_cons, List.length_nil] at hlen
          omega
      | cons q ps =>
          simp only [List.map_cons, List.map_nil, joinWith, List.length_append, List.length_cons,
            List.length_nil] at hlen
          omega

/-- Addresses without line breaks leave nothing open. -/
theorem pairs_eq_of_preimage {ps qs : List (Address × UInt64)}
    (hps : ∀ p ∈ ps, '\n' ∉ p.1.value.toList) (hqs : ∀ q ∈ qs, '\n' ∉ q.1.value.toList)
    (h : commitmentPreimage ps = commitmentPreimage qs) : ps = qs := by
  -- None of the lists has a line break to count.
  have hzero : ∀ {rs : List (Address × UInt64)}, (∀ r ∈ rs, '\n' ∉ r.1.value.toList) →
      lineBreaks rs = List.replicate rs.length 0 := by
    intro rs hrs
    rw [lineBreaks, List.eq_replicate_iff]
    refine ⟨List.length_map _, ?_⟩
    intro k hk
    rcases List.mem_map.mp hk with ⟨r, hr, rfl⟩
    exact List.count_eq_zero_of_not_mem (hrs r hr)
  -- The number of lines can be read off the text.
  have hlength : ∀ {rs : List (Address × UInt64)}, (∀ r ∈ rs, '\n' ∉ r.1.value.toList) →
      rs ≠ [] → (commitmentPreimage rs).toList.count '\n' + 1 = rs.length := by
    intro rs hrs hne
    rw [commitmentPreimage, String.toList_ofList,
      count_joinWith (fun hc => hne (List.map_eq_nil_iff.mp hc)), List.map_map, List.length_map]
    have hcounts : rs.map (List.count '\n' ∘ commitmentLine) = lineBreaks rs :=
      List.map_congr_left fun p _ => count_commitmentLine p
    rw [hcounts, hzero hrs, List.sum_replicate_nat, Nat.mul_zero, Nat.zero_add]
  rw [pairs_eq_iff_of_preimage h, hzero hps, hzero hqs]
  congr 1
  cases ps with
  | nil => rw [preimage_eq_nil_iff.mp h.symm]
  | cons p ps =>
      have hne : qs ≠ [] := by
        rintro rfl
        exact List.cons_ne_nil p ps (preimage_eq_nil_iff.mp h)
      rw [← hlength hps (List.cons_ne_nil p ps), ← hlength hqs hne, h]

end Genesis

namespace State

theorem getAccount_insertPairs_of_notMem {s : State} {ps : List (Address × UInt64)} {a : Address}
    (h : a ∉ ps.map Prod.fst) : (s.insertPairs ps).getAccount a = s.getAccount a := by
  induction ps generalizing s with
  | nil => rfl
  | cons p ps ih =>
      rw [List.map_cons, List.mem_cons, not_or] at h
      rw [insertPairs_cons, ih h.2, getAccount_put]
      exact if_neg h.1

theorem getAccount_insertPairs_of_mem {s : State} {ps : List (Address × UInt64)}
    (hnodup : (ps.map Prod.fst).Nodup) {p : Address × UInt64} (h : p ∈ ps) :
    (s.insertPairs ps).getAccount p.1 = some (Account.new p.1 p.2) := by
  induction ps generalizing s with
  | nil => exact absurd h List.not_mem_nil
  | cons q ps ih =>
      rw [List.map_cons, List.nodup_cons] at hnodup
      rw [insertPairs_cons]
      rcases List.mem_cons.mp h with rfl | hmem
      · rw [getAccount_insertPairs_of_notMem hnodup.1, getAccount_put]
        exact if_pos rfl
      · exact ih hnodup.2 hmem

/-- The table at height zero holds the allocations and nothing else. -/
theorem mem_iff_getAccount_new {ps : List (Address × UInt64)}
    (hnodup : (ps.map Prod.fst).Nodup) (p : Address × UInt64) :
    p ∈ ps ↔ (new.insertPairs ps).getAccount p.1 = some (Account.new p.1 p.2) := by
  refine ⟨getAccount_insertPairs_of_mem hnodup, ?_⟩
  intro hp
  by_cases hmem : p.1 ∈ ps.map Prod.fst
  · rcases List.mem_map.mp hmem with ⟨q, hq, hqp⟩
    have hsame := getAccount_insertPairs_of_mem (s := new) hnodup hq
    rw [hqp, hp, Option.some.injEq, Account.new, Account.new, Account.mk.injEq] at hsame
    rw [← Prod.mk.eta (p := p), hsame.2.1, ← hqp]
    exact hq
  · rw [getAccount_insertPairs_of_notMem hmem] at hp
    exact absurd hp (by simp only [getAccount, new, Finmap.lookup_empty, reduceCtorEq,
      not_false_eq_true])

/-- The table at height zero determines the allocations. -/
theorem fromGenesis_eq_iff {g₁ g₂ : Genesis} {ps₁ ps₂ : List (Address × UInt64)}
    (h₁ : g₁.sortedPairs = .ok ps₁) (h₂ : g₂.sortedPairs = .ok ps₂) :
    fromGenesis g₁ = fromGenesis g₂ ↔ ps₁ = ps₂ := by
  have hs : ∀ {g ps}, Genesis.sortedPairs g = .ok ps → fromGenesis g = .ok (new.insertPairs ps) :=
    fun h => bind_ok_iff.mpr ⟨_, h, rfl⟩
  rw [hs h₁, hs h₂, Except.ok.injEq]
  constructor
  · intro heq
    have hn₁ := Genesis.sortedPairs_nodup h₁
    have hn₂ := Genesis.sortedPairs_nodup h₂
    -- The tables have the same rows, and both lists are sorted by the address.
    have hperm : ps₁.Perm ps₂ := by
      refine (List.perm_ext_iff_of_nodup hn₁.of_map hn₂.of_map).mpr ?_
      intro p
      rw [mem_iff_getAccount_new hn₁, mem_iff_getAccount_new hn₂, heq]
    refine hperm.eq_of_pairwise ?_ (Genesis.sortedPairs_strict h₁) (Genesis.sortedPairs_strict h₂)
    exact fun p q _ _ hpq hqp => absurd (lt_trans hpq hqp) (lt_irrefl _)
  · rintro rfl
    rfl

end State

section Binding

variable [Primitives]

/-- Documents with equal texts complete the handshake. -/
theorem handshakeCompletes_of_preimage {g₁ g₂ : Genesis} {ps₁ ps₂ : List (Address × UInt64)}
    (h₁ : g₁.sortedPairs = .ok ps₁) (h₂ : g₂.sortedPairs = .ok ps₂)
    (h : Genesis.commitmentPreimage ps₁ = Genesis.commitmentPreimage ps₂) :
    HandshakeCompletes g₁ g₂ := by
  refine handshakeCompletes_iff.mpr ⟨_, (Genesis.stateCommitmentHex_ok_iff g₁ _).mpr
    ⟨ps₁, h₁, rfl⟩, (Genesis.stateCommitmentHex_ok_iff g₂ _).mpr ⟨ps₂, h₂, ?_⟩⟩
  rw [h]

/-- With equal commitments and no collision, the texts are equal. -/
theorem preimage_eq_of_hex {g₁ g₂ : Genesis} {ps₁ ps₂ : List (Address × UInt64)} {hex : String}
    (h₁ : g₁.sortedPairs = .ok ps₁) (h₂ : g₂.sortedPairs = .ok ps₂)
    (hhash : Primitives.sha256 (utf8 (Genesis.commitmentPreimage ps₁)) =
        Primitives.sha256 (utf8 (Genesis.commitmentPreimage ps₂)) →
      Genesis.commitmentPreimage ps₁ = Genesis.commitmentPreimage ps₂)
    (hhex₁ : g₁.stateCommitmentHex = .ok hex) (hhex₂ : g₂.stateCommitmentHex = .ok hex) :
    Genesis.commitmentPreimage ps₁ = Genesis.commitmentPreimage ps₂ := by
  rcases (Genesis.stateCommitmentHex_ok_iff g₁ hex).mp hhex₁ with ⟨qs₁, hqs₁, hdig₁⟩
  rcases (Genesis.stateCommitmentHex_ok_iff g₂ hex).mp hhex₂ with ⟨qs₂, hqs₂, hdig₂⟩
  rw [h₁, Except.ok.injEq] at hqs₁
  rw [h₂, Except.ok.injEq] at hqs₂
  rw [hdig₁, ← hqs₁, ← hqs₂] at hdig₂
  exact hhash (Subtype.ext (hexEncode_inj hdig₂))

/-- What the commitment binds. If the hashed texts of two documents are equal,
    the allocations are equal exactly if the addresses hold, in order, the same
    numbers of line breaks. So if the hash does not collide on the two texts, two
    nodes that complete the handshake, or that take the binding of one data
    directory, have the same table at height zero exactly in that case. -/
theorem commitment_binds_iff {g₁ g₂ : Genesis} {ps₁ ps₂ : List (Address × UInt64)}
    (h₁ : g₁.sortedPairs = .ok ps₁) (h₂ : g₂.sortedPairs = .ok ps₂) :
    (Genesis.commitmentPreimage ps₁ = Genesis.commitmentPreimage ps₂ →
      (ps₁ = ps₂ ↔ Genesis.lineBreaks ps₁ = Genesis.lineBreaks ps₂)) ∧
    ((Primitives.sha256 (utf8 (Genesis.commitmentPreimage ps₁)) =
        Primitives.sha256 (utf8 (Genesis.commitmentPreimage ps₂)) →
      Genesis.commitmentPreimage ps₁ = Genesis.commitmentPreimage ps₂) →
      (HandshakeCompletes g₁ g₂ →
        (State.fromGenesis g₁ = State.fromGenesis g₂ ↔
          Genesis.lineBreaks ps₁ = Genesis.lineBreaks ps₂)) ∧
      ∀ parse path raw, verifyBindingIfPresent parse path (some raw) g₁ = .ok () →
        verifyBindingIfPresent parse path (some raw) g₂ = .ok () →
          (State.fromGenesis g₁ = State.fromGenesis g₂ ↔
            Genesis.lineBreaks ps₁ = Genesis.lineBreaks ps₂)) := by
  refine ⟨Genesis.pairs_eq_iff_of_preimage, fun hhash => ⟨?_, ?_⟩⟩
  · intro hshake
    rcases handshakeCompletes_iff.mp hshake with ⟨hex, hhex₁, hhex₂⟩
    rw [State.fromGenesis_eq_iff h₁ h₂]
    exact Genesis.pairs_eq_iff_of_preimage (preimage_eq_of_hex h₁ h₂ hhash hhex₁ hhex₂)
  · intro parse path raw hbind₁ hbind₂
    rcases verifyBindingIfPresent_ok_iff.mp hbind₁ with ⟨text, hex, hraw, hparse, hhex₁⟩
    rcases verifyBindingIfPresent_ok_iff.mp hbind₂ with ⟨text', hex', hraw', hparse', hhex₂⟩
    -- Both read the same file, so both commit to what it names.
    rw [hraw, Except.ok.injEq] at hraw'
    rw [← hraw', hparse, Except.ok.injEq] at hparse'
    rw [← hparse'] at hhex₂
    rw [State.fromGenesis_eq_iff h₁ h₂]
    exact Genesis.pairs_eq_iff_of_preimage (preimage_eq_of_hex h₁ h₂ hhash hhex₁ hhex₂)

end Binding

namespace Sample

/-- Two accounts. -/
def twoAccounts : Genesis :=
  { allocations := [⟨"b", 2⟩, ⟨"a", 1⟩] }

/-- One account whose address reads like the start of the other document. -/
def oneAccount : Genesis :=
  { allocations := [⟨"a|1\nb", 2⟩] }

theorem sortedPairs_twoAccounts : twoAccounts.sortedPairs = .ok [(⟨"a"⟩, 1), (⟨"b"⟩, 2)] := by
  decide

theorem sortedPairs_oneAccount : oneAccount.sortedPairs = .ok [(⟨"a|1\nb"⟩, 2)] := by
  decide

/-- The same accounts in another order. -/
def twoAccountsSorted : Genesis :=
  { allocations := [⟨"a", 1⟩, ⟨"b", 2⟩] }

theorem sortedPairs_twoAccountsSorted :
    twoAccountsSorted.sortedPairs = .ok [(⟨"a"⟩, 1), (⟨"b"⟩, 2)] := by
  decide

/-- The order of the allocations does not matter to the handshake or to the
    table. -/
theorem commitment_binds_twoAccounts :
    State.fromGenesis twoAccounts = State.fromGenesis twoAccountsSorted :=
  ((commitment_binds_iff sortedPairs_twoAccounts sortedPairs_twoAccountsSorted).2
    (fun _ => rfl)).1 (handshakeCompletes_of_preimage sortedPairs_twoAccounts
      sortedPairs_twoAccountsSorted rfl) |>.mpr rfl

/-- Different documents with one text: their nodes take each other, and have
    different accounts. -/
theorem commitment_ambiguous :
    oneAccount.sortedPairs = .ok [(⟨"a|1\nb"⟩, 2)] ∧
    twoAccounts.sortedPairs = .ok [(⟨"a"⟩, 1), (⟨"b"⟩, 2)] ∧
    Genesis.commitmentPreimage [(⟨"a|1\nb"⟩, 2)] =
      Genesis.commitmentPreimage [(⟨"a"⟩, 1), (⟨"b"⟩, 2)] ∧
    HandshakeCompletes oneAccount twoAccounts ∧
    State.fromGenesis oneAccount ≠ State.fromGenesis twoAccounts := by
  have htext : Genesis.commitmentPreimage [(⟨"a|1\nb"⟩, 2)] =
      Genesis.commitmentPreimage [(⟨"a"⟩, 1), (⟨"b"⟩, 2)] := by
    decide
  refine ⟨sortedPairs_oneAccount, sortedPairs_twoAccounts, htext,
    handshakeCompletes_of_preimage sortedPairs_oneAccount sortedPairs_twoAccounts htext, ?_⟩
  rw [Ne, State.fromGenesis_eq_iff sortedPairs_oneAccount sortedPairs_twoAccounts]
  exact fun hpairs => absurd (congrArg List.length hpairs) (by decide)

end Sample

end Trilogicon
