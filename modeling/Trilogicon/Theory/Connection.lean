import Trilogicon.Core.Connection
import Trilogicon.Theory.Binding
import Trilogicon.Theory.Serve
import Trilogicon.Theory.Session

/-!
# What Crosses a Connection

A session reads and writes bytes, and the bytes are all that a peer can do to a
node. Whatever bytes arrive, the frames that a node handles are those that
stand, one after another, behind a HELLO with its own commitment; and whatever
it handles, it sends nothing but its acknowledgement and batches of its blocks.
With what it reads given by the bytes, a session is one of `Core.Session`, so
all that was shown there holds of connections.

The other end of a connection may be a node that pushes a message. The two ends
are put together by what arrives: a first part of what was sent, cut anywhere.
A frame is handled only if all of it arrived, so the receiver handles the
message or nothing. The sender returns `Ok` only if the receiver has
acknowledged, and then, if everything arrives, the message is handled.

## Main definitions

* `nthRead`: What the calls of `read_framed` return, one after another.
* `Turn.answers`: What a turn sends.
* `Serves`: What the loop does with its stream.

## Theorems

* `decodeSessionPayload_ok_iff`: A session frame is accepted exactly as written.
* `checkSessionPeer_frame_iff`: The frames a node takes.
* `connectionLoop_fst`: A session on a stream is a session.
* `Serves.incoming`, `Serves.sent`: What a session reads and sends.
* `frames_front`: Frames in a part of frames are the first ones.
* `connection_transcript`: All that crosses a connection.
* `push_delivery`: A message arrives whole or not at all.
-/

namespace Trilogicon

/-! ### Session frames -/

/-- A session frame is accepted exactly as it is written. -/
theorem decodeSessionPayload_ok_iff {data : Bytes} {op : UInt8} {ver : UInt16} {hex : String}
    {h : UInt64} :
    decodeSessionPayload data = .ok (op, ver, hex, h) ↔
      (utf8 hex).length ≤ maxSessionCommitmentBytes ∧ data = sessionPayload op ver hex h := by
  constructor
  · intro hdecode
    unfold decodeSessionPayload at hdecode
    simp only [ite_error_ok_iff] at hdecode
    -- The three checks on lengths passed, so every field has its bytes.
    rcases hdecode with ⟨hshort, hcap, htrunc, hdecode⟩
    rcases htext : fromUtf8 ((data.drop 5).take (ofBe ((data.drop 3).take 2))) with _ | text
    · rw [htext] at hdecode
      exact absurd hdecode (by simp only [reduceCtorEq, not_false_eq_true])
    simp only [htext, ite_error_ok_iff, not_not, Except.ok.injEq, Prod.mk.injEq, ne_eq] at hdecode
    rcases hdecode with ⟨hlength, hop, hver, rfl, hh⟩
    have hutf8 := utf8_of_fromUtf8 htext
    generalize hn : ofBe ((data.drop 3).take 2) = len at hcap htrunc hlength hutf8 hh
    have hlen : (utf8 text).length = len := by
      rw [hutf8, List.length_take, List.length_drop]
      omega
    refine ⟨by omega, ?_⟩
    -- The bytes are taken apart from the front: each field has its width.
    have hhead : data = op :: data.drop 1 := by
      rcases data with _ | ⟨x, rest⟩
      · exact absurd (Nat.zero_lt_succ 12) hshort
      · rw [← hop]
        rfl
    have hversion : beBytes 2 ver.toNat = (data.drop 1).take 2 := by
      have hwidth : ((data.drop 1).take 2).length = 2 := by
        rw [List.length_take, List.length_drop]
        omega
      have hword := ofBe_lt ((data.drop 1).take 2)
      rw [hwidth] at hword
      rw [← hver, UInt16.toNat_ofNat_of_lt' hword]
      exact beBytes_ofBe_of_length hwidth
    have hcount : beBytes 2 (utf8 text).length = (data.drop 3).take 2 := by
      rw [hlen, ← hn]
      refine beBytes_ofBe_of_length ?_
      rw [List.length_take, List.length_drop]
      omega
    have hheight : beBytes 8 h.toNat = data.drop (5 + len) := by
      have hwidth : (data.drop (5 + len)).length = 8 := by
        rw [List.length_drop]
        omega
      have hword := ofBe_lt (data.drop (5 + len))
      rw [hwidth] at hword
      rw [List.take_of_length_le hwidth.le] at hh
      rw [← hh, UInt64.toNat_ofNat_of_lt' hword]
      exact beBytes_ofBe_of_length hwidth
    unfold sessionPayload
    rw [hversion, hcount, hutf8, hheight]
    conv_lhs => rw [hhead]
    rw [List.cons_append, List.cons_append, List.cons_append, List.append_assoc, List.append_assoc,
      ← List.drop_drop, List.take_append_drop, show (5 : Nat) = 3 + 2 from rfl, ← List.drop_drop,
      List.take_append_drop, show (3 : Nat) = 1 + 2 from rfl, ← List.drop_drop,
      List.take_append_drop]
  · intro h
    rcases h with ⟨hlen, rfl⟩
    exact decodeSessionPayload_sessionPayload op ver h hlen

section Check

variable [Primitives]

/-- The frames a node takes at the start of a session: those with its own
    commitment. -/
theorem checkSessionPeer_frame_iff {opcode : UInt8} {wrongOpcode : UInt8 → String} {g : Genesis}
    {frame : Bytes} :
    checkSessionPeer opcode wrongOpcode g frame = .ok () ↔ ∃ hex h,
      g.stateCommitmentHex = .ok hex ∧
        frame = sessionPayload opcode trilWireProtocolVersion hex h := by
  constructor
  · intro h
    simp only [checkSessionPeer, bind_ok_iff, mapError_ok_iff, ite_error_ok_iff, Prod.exists,
      not_not, ne_eq] at h
    rcases h with ⟨op, ver, hex, height, hdecode, rfl, rfl, _, hhex, rfl, _⟩
    exact ⟨hex, height, hhex, (decodeSessionPayload_ok_iff.mp hdecode).2⟩
  · intro h
    rcases h with ⟨hex, height, hhex, rfl⟩
    exact (checkSessionPeer_ok_iff (encodeSessionPayload_ok_iff.mpr ⟨hex, hhex, rfl⟩)).mpr rfl

end Check

/-! ### Reading -/

/-- What the calls of `read_framed` return, one after another. -/
def nthRead (s : Stream) : Nat → Except IoError Bytes
  | 0 => (readFramed s).1
  | j + 1 => nthRead (readFramed s).2 j

/-- A read does not touch what was sent, and depends only on what arrives. -/
theorem readFramed_congr {s t : Stream} (hin : s.incoming = t.incoming)
    (hend : s.ending = t.ending) :
    (readFramed s).1 = (readFramed t).1 ∧
      (readFramed s).2.incoming = (readFramed t).2.incoming ∧
      (readFramed s).2.ending = (readFramed t).2.ending := by
  rcases s with ⟨incoming, ending, writes, sent⟩
  rcases t with ⟨incoming', ending', writes', sent'⟩
  subst hin hend
  unfold readFramed Stream.readExact
  -- Each step looks at the bytes that are left and at nothing else.
  by_cases hhdr : List.length incoming < 4
  · simp only [hhdr, if_true, andThen, and_self]
  simp only [hhdr, if_false, andThen]
  by_cases hmax : maxWireFrameBytes < ofBe (incoming.take 4)
  · simp only [hmax, if_true, and_self]
  simp only [hmax, if_false]
  by_cases hbody : (incoming.drop 4).length < ofBe (incoming.take 4)
  · simp only [hbody, if_true, and_self]
  · simp only [hbody, if_false, and_self]

theorem nthRead_congr {s t : Stream} (hin : s.incoming = t.incoming) (hend : s.ending = t.ending)
    (j : Nat) : nthRead s j = nthRead t j := by
  induction j generalizing s t with
  | zero => exact (readFramed_congr hin hend).1
  | succ j ih =>
      unfold nthRead
      exact ih (readFramed_congr hin hend).2.1 (readFramed_congr hin hend).2.2

theorem readFramed_sent (s : Stream) : (readFramed s).2.sent = s.sent := by
  unfold readFramed Stream.readExact
  by_cases hhdr : List.length s.incoming < 4
  · simp only [hhdr, if_true, andThen]
  simp only [hhdr, if_false, andThen]
  by_cases hmax : maxWireFrameBytes < ofBe (s.incoming.take 4)
  · simp only [hmax, if_true]
  simp only [hmax, if_false]
  by_cases hbody : (s.incoming.drop 4).length < ofBe (s.incoming.take 4)
  · simp only [hbody, if_true]
  · simp only [hbody, if_false]

/-! ### Writing -/

/-- A write reads nothing and sends a part of the frame. -/
theorem writeFramed_spec (s : Stream) (payload : Bytes) :
    (writeFramed s payload).2.incoming = s.incoming ∧
    (writeFramed s payload).2.ending = s.ending ∧
    (writeFramed s payload).2.sent <+: s.sent ++ frameOnWire payload := by
  unfold writeFramed
  rcases hlen : validateOutboundFramedPayloadLen payload.length with e | len
  · exact ⟨rfl, rfl, List.prefix_append _ _⟩
  rcases validateOutboundFramedPayloadLen_ok_iff.mp hlen with ⟨_, rfl⟩
  unfold attempt Stream.writeAll
  rcases s.writes with _ | ⟨_ | ⟨k, e⟩, later⟩
  · exact ⟨rfl, rfl, List.prefix_refl _⟩
  · exact ⟨rfl, rfl, List.prefix_refl _⟩
  · refine ⟨rfl, rfl, (List.prefix_append_right_inj _).mpr ?_⟩
    exact List.take_prefix _ _

theorem respond_spec (s : Stream) (o : Except PeerFrameError (Option Bytes)) :
    (respond s o).2.incoming = s.incoming ∧ (respond s o).2.ending = s.ending := by
  rcases o with e | _ | resp
  · exact ⟨rfl, rfl⟩
  · exact ⟨rfl, rfl⟩
  · exact ⟨(writeFramed_spec s resp).1, (writeFramed_spec s resp).2.1⟩

/-- What an outcome sends. -/
def answersOf : Except PeerFrameError (Option Bytes) → List Bytes
  | .ok (some resp) => [resp]
  | _ => []

theorem respond_sent (s : Stream) (o : Except PeerFrameError (Option Bytes)) :
    (respond s o).2.sent <+: s.sent ++ (answersOf o).flatMap frameOnWire ∧
      ((respond s o).1 = .ok () →
        (respond s o).2.sent = s.sent ++ (answersOf o).flatMap frameOnWire) := by
  rcases o with e | _ | resp
  · exact ⟨List.prefix_append _ _, fun _ => (List.append_nil _).symm⟩
  · exact ⟨List.prefix_append _ _, fun _ => (List.append_nil _).symm⟩
  · rw [answersOf, List.flatMap_singleton]
    exact ⟨(writeFramed_spec s resp).2.2, fun hok => (writeFramed_ok (Prod.ext hok rfl)).2.1⟩

/-- On a connection that takes everything, an answer that fits is sent. -/
theorem respond_complete {s : Stream} {o : Except PeerFrameError (Option Bytes)}
    (hw : s.writes = []) (hfits : ∀ r ∈ answersOf o, r.length ≤ maxWireFrameBytes) :
    respond s o = (.ok (), { s with sent := s.sent ++ (answersOf o).flatMap frameOnWire }) := by
  rcases o with e | _ | resp
  · simp only [respond, answersOf, List.flatMap_nil, List.append_nil]
  · simp only [respond, answersOf, List.flatMap_nil, List.append_nil]
  · rw [answersOf, List.forall_mem_singleton] at hfits
    rw [respond, answersOf, List.flatMap_singleton, writeFramed_of_writes_nil hfits hw]

section Serve

variable [Primitives]

/-! ### The loop -/

/-- What becomes of a write does not matter to the node. -/
theorem Turn.handle_write (policy : SessionPolicy) (t : Turn) (write : Except IoError Unit) :
    { t with write := write }.handle policy = t.handle policy :=
  rfl

/-- A session on a stream is a session whose reads are those of the stream and
    whose writes are those of its turns. -/
theorem connectionLoop_fst {policy : SessionPolicy} {w : Surroundings} {v : SessionWorld}
    (hothers : v.others = w.others) (hclock : v.clock = w.clock) (hcalls : v.calls = w.calls)
    {left i : Nat} {s : Stream} {n : NodeInner} {k : LoopCounters}
    (hreads : ∀ j, v.reads (i + j) = nthRead s j)
    (hwrites : ∀ j t, (connectionLoop policy w left i s n k).1.turns[j]? = some t →
      v.writes (i + j) = t.write) :
    (connectionLoop policy w left i s n k).1 = sessionLoop policy v left i n k := by
  induction left generalizing i s n k with
  | zero => rfl
  | succ left ih =>
      have hread : v.reads i = (readFramed s).1 := hreads 0
      unfold connectionLoop at hwrites ⊢
      unfold sessionLoop
      by_cases hseen : maxFramesPerInboundSession < saturatingSucc32 k.framesSeen
      · simp only [if_pos hseen]
      simp only [if_neg hseen] at hwrites ⊢
      rw [hread]
      rcases hs : readFramed s with ⟨e | frame, s₁⟩
      · rfl
      simp only [hs] at hwrites ⊢
      rcases hframe : checkedSucc32 k.appFrames with _ | nextFrame
      · rfl
      simp only [hframe] at hwrites ⊢
      by_cases happ : policy.maxAppFramesPerSession < nextFrame
      · simp only [if_pos happ]
      simp only [if_neg happ] at hwrites ⊢
      rw [hothers, hclock, hcalls]
      -- The two turns differ only in what becomes of the write.
      generalize hturn : Turn.mk frame (w.others i n) _ (w.clock i) (w.calls i) (.ok ()) = t
        at hwrites ⊢
      have hturn' : ∀ x, Turn.mk frame (w.others i n) { k with
          framesSeen := saturatingSucc32 k.framesSeen, appFrames := nextFrame } (w.clock i)
          (w.calls i) x = { t with write := x } := by
        intro x
        rw [← hturn]
      rw [hturn', Turn.handle_write policy t (v.writes i)]
      rcases hhandle : t.handle policy with _ | ⟨o, node, k₁⟩
      · -- A panic leaves the turn with the write it was given.
        simp only [hhandle] at hwrites ⊢
        rw [show v.writes i = t.write from hwrites 0 t rfl]
      rcases hresp : respond s₁ o with ⟨write, s₂⟩
      simp only [hhandle, hresp, hturn'] at hwrites ⊢
      rcases hsettle : { t with write := write }.settle policy k₁ o with ⟨k₂, _ | result⟩
      · simp only [hsettle] at hwrites ⊢
        rw [show v.writes i = write from hwrites 0 _ rfl, hsettle]
        -- The reads that are left are those behind the frame.
        have hrest := respond_spec s₁ o
        rw [hresp] at hrest
        have hloop : (connectionLoop policy w left (i + 1) s₂ node k₂).1 =
            sessionLoop policy v left (i + 1) node k₂ := by
          refine ih (fun j => ?_) (fun j u hu => ?_)
          · rw [Nat.add_right_comm, Nat.add_assoc, hreads (j + 1), nthRead, hs]
            exact nthRead_congr hrest.1.symm hrest.2.symm j
          · rw [Nat.add_right_comm, Nat.add_assoc]
            exact hwrites (j + 1) u hu
        simp only [hloop]
      · -- The session ends with this turn, so no read is left to compare.
        simp only [hsettle] at hwrites ⊢
        rw [show v.writes i = write from hwrites 0 _ rfl, hsettle]

/-- What a turn sends. -/
def Turn.answers (policy : SessionPolicy) (t : Turn) : List Bytes :=
  match t.handle policy with
  | some (o, _, _) => answersOf o
  | none => []

theorem Turn.answers_of_handle {policy : SessionPolicy} {t : Turn} {node : NodeInner}
    {k : LoopCounters} {o : Except PeerFrameError (Option Bytes)}
    (h : t.handle policy = some (o, node, k)) : t.answers policy = answersOf o := by
  rw [Turn.answers, h]

/-- What the loop does with its stream: nothing is sent, or a frame is read and
    handled, and the response, if any, is written. Only after a write that
    succeeded the loop goes on. -/
inductive Serves (policy : SessionPolicy) : Stream → List Turn → Stream → Prop where
  | idle {s s' : Stream} (hsent : s'.sent = s.sent) : Serves policy s [] s'
  | panics {s s₁ : Stream} {t : Turn} (hread : readFramed s = (.ok t.payload, s₁))
      (hhandle : t.handle policy = none) : Serves policy s [t] s₁
  | last {s s₁ s' : Stream} {t : Turn} {o : Except PeerFrameError (Option Bytes)}
      {node : NodeInner} {k : LoopCounters} (hread : readFramed s = (.ok t.payload, s₁))
      (hhandle : t.handle policy = some (o, node, k)) (hwrite : respond s₁ o = (t.write, s')) :
      Serves policy s [t] s'
  | more {s s₁ s₂ s' : Stream} {t : Turn} {rest : List Turn}
      {o : Except PeerFrameError (Option Bytes)} {node : NodeInner} {k : LoopCounters}
      (hread : readFramed s = (.ok t.payload, s₁))
      (hhandle : t.handle policy = some (o, node, k)) (hwrite : respond s₁ o = (.ok (), s₂))
      (hrest : Serves policy s₂ rest s') : Serves policy s (t :: rest) s'

omit [Primitives] in
/-- The session goes on only if the response was written. -/
theorem Turn.settle_write {policy : SessionPolicy} {t : Turn} {k k' : LoopCounters}
    {o : Except PeerFrameError (Option Bytes)} {s s' : Stream}
    (hwrite : respond s o = (t.write, s')) (h : t.settle policy k o = (k', none)) :
    t.write = .ok () := by
  rcases o with e | _ | resp
  · exact (congrArg Prod.fst hwrite).symm
  · exact (congrArg Prod.fst hwrite).symm
  · unfold Turn.settle at h
    rcases hw : t.write with e | _
    · simp only [hw, Prod.mk.injEq, reduceCtorEq, and_false] at h
    · rfl

theorem connectionLoop_serves (policy : SessionPolicy) (w : Surroundings) (left i : Nat)
    (s : Stream) (n : NodeInner) (k : LoopCounters) :
    Serves policy s (connectionLoop policy w left i s n k).1.turns
      (connectionLoop policy w left i s n k).2 := by
  induction left generalizing i s n k with
  | zero => exact .idle rfl
  | succ left ih =>
      unfold connectionLoop
      by_cases hseen : maxFramesPerInboundSession < saturatingSucc32 k.framesSeen
      · simp only [if_pos hseen]
        exact .idle rfl
      simp only [if_neg hseen]
      have hsent := readFramed_sent s
      rcases hs : readFramed s with ⟨e | frame, s₁⟩
      · -- Until a frame is handled the loop only reads.
        rw [hs] at hsent
        exact .idle hsent
      rw [hs] at hsent
      rcases hframe : checkedSucc32 k.appFrames with _ | nextFrame
      · exact .idle hsent
      simp only []
      by_cases happ : policy.maxAppFramesPerSession < nextFrame
      · simp only [if_pos happ]
        exact .idle hsent
      simp only [if_neg happ]
      generalize hturn : Turn.mk frame (w.others i n) _ (w.clock i) (w.calls i) (.ok ()) = t
      have hread : readFramed s = (.ok t.payload, s₁) := by rw [← hturn, hs]
      rcases hhandle : t.handle policy with _ | ⟨o, node, k₁⟩
      · exact .panics hread hhandle
      rcases hresp : respond s₁ o with ⟨write, s₂⟩
      have hlast : ∀ x, Turn.mk frame (w.others i n) { k with
          framesSeen := saturatingSucc32 k.framesSeen, appFrames := nextFrame } (w.clock i)
          (w.calls i) x = { t with write := x } := by
        intro x
        rw [← hturn]
      simp only [hresp, hlast]
      rcases hsettle : { t with write := write }.settle policy k₁ o with ⟨k₂, _ | result⟩
      · have hok := Turn.settle_write hresp hsettle
        simp only [hsettle]
        exact .more (t := { t with write := write }) hread hhandle (hok ▸ hresp)
          (ih (i + 1) s₂ node k₂)
      · simp only [hsettle]
        exact .last (t := { t with write := write }) hread hhandle hresp

/-- Only a request for blocks is answered. -/
theorem applyPredecoded_response {n n' : NodeInner} {decoded : PredecodedInbound}
    {nowUnix : UInt64} {k k' : SessionCounters} {policy : InboundPeerPolicy} {calls : AppendIo}
    {resp : Bytes}
    (h : n.applyPredecoded decoded nowUnix k policy calls = some (.ok (some resp), n', k')) :
    ∃ startHeight, decoded = .getBlocks startHeight := by
  unfold NodeInner.applyPredecoded at h
  by_cases hpois : n.store.poisoned = true
  · simp only [hpois, if_true, Option.some.injEq, Prod.mk.injEq, reduceCtorEq, false_and] at h
  rw [if_neg hpois] at h
  cases decoded with
  | tx tx =>
      simp only [Option.some.injEq, Prod.mk.injEq, Except.ok.injEq, reduceCtorEq, false_and] at h
  | block b =>
      -- A block is taken, counted or refused, and never answered.
      simp only [NodeInner.applyBlock, Option.bind_eq_bind] at h
      by_cases hstale : b.height ≤ n.chain.height
      · rw [if_pos hstale] at h
        by_cases hquota : policy.maxStaleDecodedBlocksPerSession <
            saturatingSucc32 k.staleDecodedBlocks
        · simp only [if_pos hquota, Option.some.injEq, Prod.mk.injEq, reduceCtorEq,
            false_and] at h
        · simp only [if_neg hquota, Option.some.injEq, Prod.mk.injEq, Except.ok.injEq,
            reduceCtorEq, false_and] at h
      rw [if_neg hstale, Option.bind_eq_some_iff] at h
      rcases h with ⟨⟨failure | _, node⟩, _, h⟩
      · by_cases hcounts : failure.countsTowardInvalidBlockBudget = true
        · simp only [hcounts, if_true] at h
          by_cases hbudget : policy.maxInvalidNetworkBlocksPerSession ≤
              saturatingSucc32 k.invalidBlockStrikes
          · simp only [if_pos hbudget, Option.some.injEq, Prod.mk.injEq, reduceCtorEq,
              false_and] at h
          · simp only [if_neg hbudget, Option.some.injEq, Prod.mk.injEq, Except.ok.injEq,
              reduceCtorEq, false_and] at h
        · simp only [hcounts, Bool.false_eq_true, if_false, Option.some.injEq, Prod.mk.injEq,
            reduceCtorEq, false_and] at h
      · simp only [Option.some.injEq, Prod.mk.injEq, Except.ok.injEq, reduceCtorEq,
          false_and] at h
  | getBlocks startHeight => exact ⟨startHeight, rfl⟩

omit [Primitives] in
/-- A message that passes is the one that was decoded. -/
theorem Turn.screen_ok {policy : SessionPolicy} {t : Turn} {decoded : PredecodedInbound}
    {k : LoopCounters} (h : t.screen policy = (.ok decoded, k)) :
    predecodeInboundAppPayload t.payload = .ok decoded := by
  unfold Turn.screen at h
  rcases hd : predecodeInboundAppPayload t.payload with e | tx | b | start
  · simp only [hd, Prod.mk.injEq, reduceCtorEq, false_and] at h
  · by_cases hquota : saturatingSucc32 t.counters.inboundTxDecoded ≤
        policy.maxInboundTxPerSession
    · simp only [hd, hquota, if_true, Prod.mk.injEq] at h
      exact h.1
    · simp only [hd, hquota, if_false, Prod.mk.injEq, reduceCtorEq, false_and] at h
  · simp only [hd, Prod.mk.injEq] at h
    exact h.1
  · simp only [hd, Prod.mk.injEq] at h
    exact h.1

/-- A response is a batch of the blocks that were asked for. -/
theorem Turn.answers_batch {policy : SessionPolicy} {t : Turn} {resp : Bytes}
    (h : resp ∈ t.answers policy) :
    resp.length ≤ maxWireFrameBytes ∧
      ∃ startHeight, predecodeInboundAppPayload t.payload = .ok (.getBlocks startHeight) ∧
        wireDecodeBlocksResponse resp =
          .ok (t.node.chain.blocksFromHeightLimited startHeight maxBlocksPerBatch) := by
  -- An answer is what the frame was handled with.
  have hhandle : ∃ node k, t.handle policy = some (.ok (some resp), node, k) := by
    unfold Turn.answers at h
    rcases hh : t.handle policy with _ | ⟨e | _ | r, node, k⟩
    · simp only [hh, List.not_mem_nil] at h
    · simp only [hh, answersOf, List.not_mem_nil] at h
    · simp only [hh, answersOf, List.not_mem_nil] at h
    · simp only [hh, answersOf, List.mem_singleton] at h
      exact ⟨node, k, by rw [h]⟩
  rcases hhandle with ⟨node, k, hhandle⟩
  unfold Turn.handle at hhandle
  rcases hscr : t.screen policy with ⟨e | decoded, k₁⟩
  -- A frame that was refused is not answered.
  · simp only [hscr, Option.some.injEq, Prod.mk.injEq, reduceCtorEq, false_and] at hhandle
  simp only [hscr, Option.bind_eq_bind, Option.bind_eq_some_iff, Option.some.injEq,
    Prod.mk.injEq] at hhandle
  rcases hhandle with ⟨⟨o, node', c⟩, happ, rfl, _⟩
  rcases applyPredecoded_response happ with ⟨startHeight, rfl⟩
  rcases getBlocks_answer happ with ⟨hfits, hbatch⟩
  exact ⟨hfits, startHeight, Turn.screen_ok hscr, hbatch⟩

namespace Serves

variable {policy : SessionPolicy} {s s' : Stream} {turns : List Turn}

/-- The frames that are handled stand one after another. -/
theorem incoming (h : Serves policy s turns s') :
    (∀ p ∈ turns.map Turn.payload, p.length ≤ maxWireFrameBytes) ∧
      (turns.map Turn.payload).flatMap frameOnWire <+: s.incoming := by
  -- A frame that is handled was read in front of all that follows it.
  have hcons : ∀ {s s₁ : Stream} {t : Turn} {ps : List Bytes},
      readFramed s = (.ok t.payload, s₁) → (∀ p ∈ ps, p.length ≤ maxWireFrameBytes) →
      ps.flatMap frameOnWire <+: s₁.incoming →
      (∀ p ∈ t.payload :: ps, p.length ≤ maxWireFrameBytes) ∧
        (t.payload :: ps).flatMap frameOnWire <+: s.incoming := by
    intro s s₁ t ps hread hps hin
    rcases readFramed_ok_iff.mp hread with ⟨hmax, rest, hfront, rfl⟩
    refine ⟨List.forall_mem_cons.mpr ⟨hmax, hps⟩, ?_⟩
    rw [hfront, List.flatMap_cons]
    exact (List.prefix_append_right_inj _).mpr hin
  have hnone : ∀ p ∈ ([] : List Bytes), p.length ≤ maxWireFrameBytes :=
    fun p hp => absurd hp List.not_mem_nil
  induction h with
  | idle _ => exact ⟨hnone, List.nil_prefix⟩
  | panics hread _ => exact hcons hread hnone List.nil_prefix
  | last hread _ _ => exact hcons hread hnone List.nil_prefix
  -- Sending the answer leaves what is still to be read.
  | @more s s₁ s₂ s' t rest o node k hread _ hwrite _ ih =>
      have hsame := (respond_spec s₁ o).1
      rw [hwrite] at hsame
      exact hcons hread ih.1 (hsame ▸ ih.2)

/-- What is sent is a part of the answers. -/
theorem sent (h : Serves policy s turns s') :
    s'.sent <+: s.sent ++ (turns.flatMap (Turn.answers policy)).flatMap frameOnWire := by
  induction h with
  | idle hsent =>
      rw [hsent]
      exact List.prefix_append _ _
  | @panics s s₁ t hread _ =>
      have hkeep := readFramed_sent s
      rw [hread] at hkeep
      rw [hkeep]
      exact List.prefix_append _ _
  | @last s s₁ s' t o node k hread hhandle hwrite =>
      have hkeep := readFramed_sent s
      have hsent := (respond_sent s₁ o).1
      rw [hread] at hkeep
      rw [hwrite, hkeep] at hsent
      rw [List.flatMap_singleton, Turn.answers_of_handle hhandle]
      exact hsent
  -- The answer went out whole, or the loop would have stopped.
  | @more s s₁ s₂ s' t rest o node k hread hhandle hwrite hrest ih =>
      have hkeep := readFramed_sent s
      have hsent := (respond_sent s₁ o).2
      rw [hread] at hkeep
      rw [hwrite, hkeep] at hsent
      rw [hsent rfl, List.append_assoc] at ih
      rw [List.flatMap_cons, List.flatMap_append, Turn.answers_of_handle hhandle]
      exact ih

/-- On a connection that takes everything, all answers are sent. -/
theorem sent_all (h : Serves policy s turns s') (hw : s.writes = []) :
    s'.sent = s.sent ++ (turns.flatMap (Turn.answers policy)).flatMap frameOnWire := by
  have hfits : ∀ {t : Turn} {o : Except PeerFrameError (Option Bytes)} {node : NodeInner}
      {k : LoopCounters}, t.handle policy = some (o, node, k) →
      ∀ r ∈ answersOf o, r.length ≤ maxWireFrameBytes := by
    intro t o node k hhandle r hr
    rw [← Turn.answers_of_handle hhandle] at hr
    exact (Turn.answers_batch hr).1
  induction h with
  | idle hsent => rw [hsent, List.flatMap_nil, List.flatMap_nil, List.append_nil]
  | @panics s s₁ t hread hhandle =>
      rcases (readFramed_ok_iff.mp hread).2 with ⟨_, _, rfl⟩
      rw [List.flatMap_singleton, Turn.answers, hhandle, List.flatMap_nil, List.append_nil]
  | @last s s₁ s' t o node k hread hhandle hwrite =>
      rcases (readFramed_ok_iff.mp hread).2 with ⟨_, _, rfl⟩
      have hsent := congrArg (fun r => r.2.sent)
        (hwrite.symm.trans (respond_complete hw (hfits hhandle)))
      rw [List.flatMap_singleton, Turn.answers_of_handle hhandle]
      exact hsent
  | @more s s₁ s₂ s' t rest o node k hread hhandle hwrite _ ih =>
      rcases (readFramed_ok_iff.mp hread).2 with ⟨_, _, rfl⟩
      have hnext := congrArg Prod.snd (hwrite.symm.trans (respond_complete hw (hfits hhandle)))
      simp only at hnext
      rw [hnext] at ih
      rw [ih hw, List.flatMap_cons, List.flatMap_append, Turn.answers_of_handle hhandle,
        List.append_assoc]

end Serves

/-! ### The start of a session -/

/-- The frame of a session, if the genesis document has a commitment. -/
def sessionFrames (opcode : UInt8) (g : Genesis) (h : UInt64) : List Bytes :=
  match encodeSessionPayload opcode g h with
  | .ok frame => [frame]
  | .error _ => []

theorem sessionFrames_of_ok {opcode : UInt8} {g : Genesis} {h : UInt64} {frame : Bytes}
    (henc : encodeSessionPayload opcode g h = .ok frame) : sessionFrames opcode g h = [frame] := by
  rw [sessionFrames, henc]

/-- What the setup sends: a part of the acknowledgement, and nothing if it fails
    on a connection that takes everything. -/
theorem peerSessionSetup_sent (s : Stream) (n : NodeInner) :
    (peerSessionSetup s n).2.sent <+: s.sent ++
      (sessionFrames opSessionHelloAck n.genesis n.chain.height).flatMap frameOnWire ∧
    (s.writes = [] → (peerSessionSetup s n).1 ≠ .ok () →
      (peerSessionSetup s n).2.sent = s.sent) := by
  have hkept : ∀ {x : List UInt8}, x = s.sent → x <+: s.sent ++
      (sessionFrames opSessionHelloAck n.genesis n.chain.height).flatMap frameOnWire := by
    intro x hx
    rw [hx]
    exact List.prefix_append _ _
  unfold peerSessionSetup
  by_cases hpois : n.store.poisoned = true
  · rw [if_pos hpois]
    exact ⟨hkept rfl, fun _ _ => rfl⟩
  rw [if_neg hpois]
  have hread := readFramed_sent s
  unfold handshakeResponder
  -- Up to the acknowledgement nothing is written.
  rcases hs : readFramed s with ⟨e | frame, s₁⟩
  · rw [hs] at hread
    exact ⟨hkept hread, fun _ _ => hread⟩
  rw [hs] at hread
  simp only [andThen]
  rcases checkSessionPeer opSessionHello _ n.genesis frame with e | _
  · exact ⟨hkept hread, fun _ _ => hread⟩
  rcases henc : encodeSessionPayload opSessionHelloAck n.genesis n.chain.height with e | ack
  · exact ⟨by rw [sessionFrames, henc]; exact hread ▸ List.prefix_append _ _, fun _ _ => hread⟩
  simp only [attempt, Except.mapError]
  -- The acknowledgement is written last, and may be cut off.
  refine ⟨?_, fun hw hfail => absurd ?_ hfail⟩
  · rw [sessionFrames_of_ok henc, List.flatMap_singleton, ← hread]
    exact (writeFramed_spec s₁ ack).2.2
  · have hw₁ : s₁.writes = [] := by
      rcases (readFramed_ok_iff.mp hs).2 with ⟨_, _, rfl⟩
      exact hw
    rw [writeFramed_of_writes_nil (encodeSessionPayload_fits henc) hw₁]

/-- A session that starts has read a HELLO with the commitment of the node and
    has acknowledged it. -/
theorem peerSessionSetup_ok {s s₁ : Stream} {n : NodeInner}
    (h : peerSessionSetup s n = (.ok (), s₁)) :
    n.store.poisoned = false ∧ s₁.sent = s.sent ++
      (sessionFrames opSessionHelloAck n.genesis n.chain.height).flatMap frameOnWire ∧
    ∃ hex height, n.genesis.stateCommitmentHex = .ok hex ∧
      s.incoming = frameOnWire (sessionPayload opSessionHello trilWireProtocolVersion hex height) ++
        s₁.incoming ∧
      (sessionPayload opSessionHello trilWireProtocolVersion hex height).length ≤
        maxWireFrameBytes ∧ s₁.ending = s.ending ∧ (s.writes = [] → s₁.writes = []) := by
  unfold peerSessionSetup at h
  by_cases hpois : n.store.poisoned = true
  · rw [if_pos hpois] at h
    exact absurd h (by simp only [Prod.mk.injEq, reduceCtorEq, false_and, not_false_eq_true])
  rw [if_neg hpois] at h
  -- The setup is a read, a check and a write, and all three succeeded.
  rcases handshakeResponder_ok_iff.mp h with ⟨frame, s₂, ack, hread, hcheck, henc, hwrite⟩
  rcases checkSessionPeer_frame_iff.mp hcheck with ⟨hex, height, hhex, rfl⟩
  rcases readFramed_ok_iff.mp hread with ⟨hmax, rest, hin, rfl⟩
  rcases writeFramed_ok hwrite with ⟨_, hsent, hin', hend⟩
  refine ⟨Bool.not_eq_true _ ▸ hpois, ?_, hex, height, hhex, by rw [hin, hin'], hmax, hend, ?_⟩
  · rw [hsent, sessionFrames_of_ok henc, List.flatMap_singleton]
  · intro hw
    have hsame := congrArg (fun r => r.2.writes)
      (hwrite.symm.trans (writeFramed_of_writes_nil (encodeSessionPayload_fits henc) hw))
    exact hsame.trans hw

/-- All that crosses a connection, whatever bytes arrive on it. Unless the
    session ends before it starts, the bytes begin with a HELLO with the commitment
    of the node; the frames that are handled stand one after another behind it; and
    the session is the one whose reads are those bytes. What is sent is a part of
    the acknowledgement and the answers, and all of it if the connection takes it;
    every answer is the batch of blocks that a frame asked for. -/
theorem connection_transcript (policy : SessionPolicy) (w : Surroundings) (s : Stream)
    (n : NodeInner) :
    ((∃ e, (serveConnection policy w s n).1 = ⟨0, [], some (.closed (.error e))⟩) ∨
      n.store.poisoned = false ∧ ∃ hex height rest writes,
        n.genesis.stateCommitmentHex = .ok hex ∧
        s.incoming = frameOnWire (sessionPayload opSessionHello trilWireProtocolVersion hex
          height) ++ rest ∧
        ((serveConnection policy w s n).1.turns.map Turn.payload).flatMap frameOnWire <+: rest ∧
        (serveConnection policy w s n).1 = peerConnectionLoop policy
          ⟨w.others, nthRead { s with incoming := rest }, writes, w.clock, w.calls⟩ n ∧
        (s.writes = [] → (serveConnection policy w s n).2.sent = s.sent ++
          (sessionFrames opSessionHelloAck n.genesis n.chain.height ++
            (serveConnection policy w s n).1.turns.flatMap (Turn.answers policy)).flatMap
              frameOnWire)) ∧
    (serveConnection policy w s n).2.sent <+: s.sent ++
      (sessionFrames opSessionHelloAck n.genesis n.chain.height ++
        (serveConnection policy w s n).1.turns.flatMap (Turn.answers policy)).flatMap
          frameOnWire ∧
    ∀ t ∈ (serveConnection policy w s n).1.turns, ∀ resp ∈ t.answers policy,
      ∃ startHeight, predecodeInboundAppPayload t.payload = .ok (.getBlocks startHeight) ∧
        wireDecodeBlocksResponse resp =
          .ok (t.node.chain.blocksFromHeightLimited startHeight maxBlocksPerBatch) := by
  refine ⟨?_, ?_, fun t _ resp hresp => (Turn.answers_batch hresp).2⟩
  · unfold serveConnection
    rcases hsetup : peerSessionSetup s n with ⟨e | _, s₁⟩
    · exact Or.inl ⟨e, rfl⟩
    -- The HELLO was taken off the bytes, and the loop runs on the rest.
    rcases peerSessionSetup_ok hsetup with ⟨hpois, hsent, hex, height, hhex, hin, _, hend, hwrites⟩
    have hserves := connectionLoop_serves policy w (maxFramesPerInboundSession.toNat + 1) 0 s₁ n
      .zero
    refine Or.inr ⟨hpois, hex, height, s₁.incoming,
      fun j => ((connectionLoop policy w (maxFramesPerInboundSession.toNat + 1) 0 s₁ n
        .zero).1.turns[j]?.map Turn.write).getD (.ok ()), hhex, hin, hserves.incoming.2, ?_, ?_⟩
    · -- The writes of the session are those that its turns report.
      refine connectionLoop_fst rfl rfl rfl (fun j => ?_) (fun j t ht => ?_)
      · rw [Nat.zero_add]
        exact nthRead_congr (s := { s with incoming := s₁.incoming }) (t := s₁) rfl hend.symm j
      · simp only [Nat.zero_add, ht, Option.map_some, Option.getD_some]
    · intro hw
      simp only
      rw [hserves.sent_all (hwrites hw), hsent, List.append_assoc, ← List.flatMap_append]
  · have hsetup := (peerSessionSetup_sent s n).1
    unfold serveConnection
    rcases hrun : peerSessionSetup s n with ⟨e | _, s₁⟩
    · -- A setup that fails leaves the answers out altogether.
      rw [hrun] at hsetup
      rw [List.flatMap_append, ← List.append_assoc]
      exact hsetup.trans (List.prefix_append _ _)
    · have hserves := connectionLoop_serves policy w (maxFramesPerInboundSession.toNat + 1) 0 s₁ n
        .zero
      have hsent := hserves.sent
      rw [(peerSessionSetup_ok hrun).2.1, List.append_assoc, ← List.flatMap_append] at hsent
      exact hsent

/-! ### Pushes -/

omit [Primitives] in
/-- Frames that stand in a part of other frames are the first of them. -/
theorem frames_front {ps qs : List Bytes}
    (hps : ∀ p ∈ ps, p.length ≤ maxWireFrameBytes) (hqs : ∀ q ∈ qs, q.length ≤ maxWireFrameBytes)
    (h : ps.flatMap frameOnWire <+: qs.flatMap frameOnWire) : ps <+: qs := by
  induction ps generalizing qs with
  | nil => exact List.nil_prefix
  | cons p ps ih =>
      rcases h with ⟨rest, h⟩
      cases qs with
      | nil =>
          -- A frame has a header, so something stands where nothing should.
          have hlen := congrArg List.length h
          rw [List.flatMap_cons, frameOnWire] at hlen
          simp only [List.length_append, beBytes_length, List.flatMap_nil, List.length_nil] at hlen
          omega
      | cons q qs =>
          rw [List.forall_mem_cons] at hps hqs
          rw [List.flatMap_cons, List.flatMap_cons, List.append_assoc] at h
          -- Both fronts begin with a frame, and a frame says where it ends.
          rcases frameOnWire_append_inj hps.1 hqs.1 h with ⟨rfl, htail⟩
          exact List.cons_prefix_cons.mpr ⟨rfl, ih hps.2 hqs.2 ⟨rest, htail⟩⟩

/-- A handshake that fails sends a part of the HELLO. -/
theorem handshakeInitiator_sent {a a' : Stream} {g : Genesis} {height : UInt64}
    {r : Except IoError Unit} (h : handshakeInitiator a g height = (r, a')) :
    a'.sent = a.sent ∨ ∃ hello, encodeSessionPayload opSessionHello g height = .ok hello ∧
      a'.sent <+: a.sent ++ [hello].flatMap frameOnWire := by
  unfold handshakeInitiator at h
  rcases henc : encodeSessionPayload opSessionHello g height with e | hello
  · rw [henc] at h
    exact Or.inl (congrArg (fun x => x.2.sent) h).symm
  refine Or.inr ⟨hello, rfl, ?_⟩
  simp only [henc, Except.mapError, attempt] at h
  -- Once the HELLO is written, nothing else is sent before the end.
  have hsent := (writeFramed_spec a hello).2.2
  rw [List.flatMap_singleton]
  rcases hwrite : writeFramed a hello with ⟨e | _, a₁⟩
  · simp only [hwrite, andThen, Prod.mk.injEq] at h
    rw [hwrite] at hsent
    exact h.2 ▸ hsent
  rw [hwrite] at hsent
  have hkeep := readFramed_sent a₁
  rcases hread : readFramed a₁ with ⟨e | resp, a₂⟩
  · simp only [hwrite, hread, andThen, Prod.mk.injEq] at h
    rw [hread] at hkeep
    rw [← h.2, hkeep]
    exact hsent
  · simp only [hwrite, hread, andThen, Prod.mk.injEq] at h
    rw [hread] at hkeep
    rw [← h.2, hkeep]
    exact hsent

/-- What a push sends: a part of the HELLO and the message. -/
theorem pushMessage_sent {what peer : String} {a a' : Stream} {g : Genesis} {height : UInt64}
    {message : Option Bytes} {r : Option (Except String Unit)}
    (h : pushMessage what peer (.ok a) g height message = (r, .ok a')) :
    ∃ ms, ms <+: message.toList ∧ (∀ m ∈ ms, m.length ≤ maxWireFrameBytes) ∧
      (a'.sent = a.sent ∨ ∃ hello, encodeSessionPayload opSessionHello g height = .ok hello ∧
        a'.sent <+: a.sent ++ (hello :: ms).flatMap frameOnWire) := by
  have hnone : ∀ m ∈ ([] : List Bytes), m.length ≤ maxWireFrameBytes :=
    fun m hm => absurd hm List.not_mem_nil
  unfold pushMessage at h
  simp only at h
  -- The push stops in the handshake, or it has sent the HELLO.
  rcases hshake : handshakeInitiator a g height with ⟨e | _, a₁⟩
  · simp only [hshake, Prod.mk.injEq, Except.ok.injEq] at h
    rw [← h.2]
    exact ⟨[], List.nil_prefix, hnone, handshakeInitiator_sent hshake⟩
  rcases handshakeInitiator_ok_iff.mp hshake with ⟨hello, a₂, resp, hhello, hwrite, hread, _⟩
  have hsent : a₁.sent = a.sent ++ frameOnWire hello := by
    have hkeep := readFramed_sent a₂
    rw [hread] at hkeep
    rw [hkeep, (writeFramed_ok hwrite).2.1]
  rcases message with _ | msg
  · simp only [hshake, Prod.mk.injEq, Except.ok.injEq] at h
    refine ⟨[], List.nil_prefix, hnone, Or.inr ⟨hello, hhello, ?_⟩⟩
    rw [← h.2, hsent, List.flatMap_singleton]
  · simp only [hshake, Prod.mk.injEq, Except.ok.injEq] at h
    rw [← h.2]
    -- A message that is too long is not written at all.
    by_cases hfits : msg.length ≤ maxWireFrameBytes
    · refine ⟨[msg], List.prefix_refl _, fun m hm => ?_, Or.inr ⟨hello, hhello, ?_⟩⟩
      · rw [List.mem_singleton.mp hm]
        exact hfits
      · rw [List.flatMap_cons, List.flatMap_singleton, ← List.append_assoc, ← hsent]
        exact (writeFramed_spec a₁ msg).2.2
    · refine ⟨[], List.nil_prefix, hnone, Or.inr ⟨hello, hhello, ?_⟩⟩
      have hkeep : (writeFramed a₁ msg).2 = a₁ := by
        unfold writeFramed validateOutboundFramedPayloadLen
        rw [if_pos (Nat.lt_of_not_le hfits)]
        rfl
      rw [hkeep, hsent, List.flatMap_singleton]

/-- A push that returns `Ok` has read an acknowledgement of its commitment and
    has sent the message. -/
theorem pushMessage_ok {what peer : String} {a a' : Stream} {g : Genesis} {height : UInt64}
    {message : Option Bytes}
    (h : pushMessage what peer (.ok a) g height message = (some (.ok ()), .ok a')) :
    ∃ hello msg, encodeSessionPayload opSessionHello g height = .ok hello ∧ message = some msg ∧
      msg.length ≤ maxWireFrameBytes ∧ a.incoming ≠ [] ∧
      a'.sent = a.sent ++ [hello, msg].flatMap frameOnWire := by
  unfold pushMessage at h
  simp only at h
  rcases hshake : handshakeInitiator a g height with ⟨e | _, a₁⟩
  · simp only [hshake, Prod.mk.injEq, Option.some.injEq, reduceCtorEq, false_and] at h
  rcases handshakeInitiator_ok_iff.mp hshake with ⟨hello, a₂, resp, hhello, hwrite, hread, _⟩
  rcases writeFramed_ok hwrite with ⟨_, hsent, hin, _⟩
  rcases readFramed_ok_iff.mp hread with ⟨_, rest, hfront, rfl⟩
  rcases message with _ | msg
  · simp only [hshake, Prod.mk.injEq, reduceCtorEq, false_and] at h
  · simp only [hshake, Prod.mk.injEq, Except.ok.injEq, Option.some.injEq, mapError_ok_iff] at h
    rcases writeFramed_ok (Prod.ext h.1 h.2) with ⟨hmax, hsent', _⟩
    refine ⟨hello, msg, hhello, rfl, hmax, ?_, ?_⟩
    · -- It has read an acknowledgement, so something had arrived.
      rw [← hin, hfront, frameOnWire]
      intro hc
      have hlen := congrArg List.length hc
      simp only [List.length_append, beBytes_length, List.length_nil] at hlen
      omega
    · rw [hsent', hsent, List.flatMap_cons, List.flatMap_singleton, List.append_assoc]

/-- The first frame of a session is handled if the session may have one. -/
theorem connectionLoop_handles {policy : SessionPolicy} (w : Surroundings) (left : Nat)
    {s s₁ : Stream} (n : NodeInner) {frame : Bytes} (hread : readFramed s = (.ok frame, s₁))
    (happ : 0 < policy.maxAppFramesPerSession) :
    ∃ t rest, (connectionLoop policy w (left + 1) 0 s n .zero).1.turns = t :: rest ∧
      t.payload = frame := by
  have hseen : ¬ maxFramesPerInboundSession < saturatingSucc32 LoopCounters.zero.framesSeen := by
    decide
  have hlimit : ¬ policy.maxAppFramesPerSession < LoopCounters.zero.appFrames + 1 := by
    rw [UInt32.not_lt, UInt32.le_iff_toNat_le]
    exact happ
  have hcount : checkedSucc32 LoopCounters.zero.appFrames =
      some (LoopCounters.zero.appFrames + 1) := by
    decide
  unfold connectionLoop
  simp only [if_neg hseen, hread, hcount, if_neg hlimit]
  -- Whatever becomes of the frame, its turn is the first.
  generalize Turn.handle policy _ = handled
  rcases handled with _ | ⟨o, node, k₁⟩
  · exact ⟨_, _, rfl, rfl⟩
  simp only
  generalize Turn.settle policy _ k₁ o = settled
  rcases settled with ⟨k₂, _ | result⟩
  · exact ⟨_, _, rfl, rfl⟩
  · exact ⟨_, _, rfl, rfl⟩

/-- The first turn finds the node as the outside has left it. -/
theorem connectionLoop_head {policy : SessionPolicy} {w : Surroundings} {left i : Nat}
    {s : Stream} {n : NodeInner} {k : LoopCounters} {t : Turn} {rest : List Turn}
    (h : (connectionLoop policy w left i s n k).1.turns = t :: rest) :
    t.node = w.others i n ∧ t.nowUnix = w.clock i ∧ t.calls = w.calls i ∧
      t.counters = k.next := by
  have hnil : ([] : List Turn) ≠ t :: rest := (List.cons_ne_nil t rest).symm
  cases left with
  | zero => exact absurd h hnil
  | succ left =>
      unfold connectionLoop at h
      by_cases hseen : maxFramesPerInboundSession < saturatingSucc32 k.framesSeen
      · rw [if_pos hseen] at h
        exact absurd h hnil
      simp only [if_neg hseen] at h
      -- The tests in front of the first frame leave no turn behind.
      generalize readFramed s = read at h
      rcases read with ⟨e | frame, s₁⟩
      · exact absurd h hnil
      by_cases hfull : k.appFrames = 0xFFFFFFFF
      · simp only [checkedSucc32, hfull, if_true] at h
        exact absurd h hnil
      simp only [checkedSucc32, hfull, if_false] at h
      by_cases happ : policy.maxAppFramesPerSession < k.appFrames + 1
      · simp only [if_pos happ] at h
        exact absurd h hnil
      simp only [if_neg happ] at h
      generalize Turn.handle policy _ = handled at h
      rcases handled with _ | ⟨o, node, k₁⟩
      · rw [← (List.cons.inj h).1]
        exact ⟨rfl, rfl, rfl, rfl⟩
      simp only at h
      generalize Turn.settle policy _ k₁ o = settled at h
      rcases settled with ⟨k₂, _ | result⟩
      · rw [← (List.cons.inj h).1]
        exact ⟨rfl, rfl, rfl, rfl⟩
      · rw [← (List.cons.inj h).1]
        exact ⟨rfl, rfl, rfl, rfl⟩

section Behind

variable {n : NodeInner} {b b₁ : Stream} {g : Genesis} {height : UInt64} {hello : Bytes}
  {ms : List Bytes}

/-- A session that starts with a part of what a node sent has the commitment of
    that node. -/
theorem setup_same_commitment (hhello : encodeSessionPayload opSessionHello g height = .ok hello)
    (harrives : b.incoming <+: (hello :: ms).flatMap frameOnWire)
    (hsetup : peerSessionSetup b n = (.ok (), b₁)) :
    n.genesis.stateCommitmentHex = g.stateCommitmentHex := by
  rcases peerSessionSetup_ok hsetup with ⟨_, _, hex, height', hhex, hin, hfits, _⟩
  rcases harrives with ⟨rest, hrest⟩
  rw [hin, List.flatMap_cons, List.append_assoc] at hrest
  -- The HELLO that it took is the one that was sent.
  rcases frameOnWire_append_inj hfits (encodeSessionPayload_fits hhello) hrest with ⟨rfl, _⟩
  have hcheck : checkSessionPeer opSessionHello (fun _ => "") n.genesis _ = .ok () :=
    checkSessionPeer_frame_iff.mpr ⟨hex, height', hhex, rfl⟩
  exact (checkSessionPeer_ok_iff hhello).mp hcheck

/-- The frames that are handled are those behind the HELLO. -/
theorem session_payloads_front (policy : SessionPolicy) (w : Surroundings)
    (hhello : hello.length ≤ maxWireFrameBytes) (hms : ∀ m ∈ ms, m.length ≤ maxWireFrameBytes)
    (harrives : b.incoming <+: (hello :: ms).flatMap frameOnWire) :
    (serveConnection policy w b n).1.turns.map Turn.payload <+: ms := by
  unfold serveConnection
  rcases hsetup : peerSessionSetup b n with ⟨e | _, b₁⟩
  · exact List.nil_prefix
  rcases peerSessionSetup_ok hsetup with ⟨_, _, hex, height', _, hin, hfits, _⟩
  rcases (connectionLoop_serves policy w (maxFramesPerInboundSession.toNat + 1) 0 b₁ n
    .zero).incoming with ⟨hps, hfront⟩
  simp only
  generalize (connectionLoop policy w (maxFramesPerInboundSession.toNat + 1) 0 b₁ n .zero).1.turns =
    turns at hps hfront ⊢
  generalize sessionPayload opSessionHello trilWireProtocolVersion hex height' = hello' at hin hfits
  -- The HELLO and the frames that were handled are a front of what was sent.
  have hall : (hello' :: turns.map Turn.payload).flatMap frameOnWire <+: b.incoming := by
    rw [hin, List.flatMap_cons]
    exact (List.prefix_append_right_inj _).mpr hfront
  have hlist := frames_front (List.forall_mem_cons.mpr ⟨hfits, hps⟩)
    (List.forall_mem_cons.mpr ⟨hhello, hms⟩) (hall.trans harrives)
  exact (List.cons_prefix_cons.mp hlist).2

/-- A session that was sent nothing handles nothing. -/
theorem session_payloads_nil (policy : SessionPolicy) (w : Surroundings)
    (hempty : b.incoming = []) : (serveConnection policy w b n).1.turns = [] := by
  unfold serveConnection
  rcases hsetup : peerSessionSetup b n with ⟨e | _, b₁⟩
  · rfl
  rcases peerSessionSetup_ok hsetup with ⟨_, _, _, _, _, hin, _⟩
  have hlen := congrArg List.length hin
  rw [hempty, frameOnWire] at hlen
  simp only [List.length_append, beBytes_length, List.length_nil] at hlen
  omega

end Behind

/-- What arrives of a push is nothing, or its message. -/
theorem push_payloads_front {what peer : String} (policy : SessionPolicy) (w : Surroundings)
    (n : NodeInner) {a a' b : Stream} {g : Genesis} {height : UInt64} {message : Option Bytes}
    {r : Option (Except String Unit)}
    (hpush : pushMessage what peer (.ok a) g height message = (r, .ok a')) (ha : a.sent = [])
    (harrives : b.incoming <+: a'.sent) :
    (serveConnection policy w b n).1.turns.map Turn.payload <+: message.toList := by
  rcases pushMessage_sent hpush with ⟨ms, hms, hfits, hkept | ⟨hello, hhello, hpart⟩⟩
  · rw [hkept, ha, List.prefix_nil] at harrives
    rw [session_payloads_nil policy w harrives]
    exact List.nil_prefix
  · rw [ha, List.nil_append] at hpart
    exact (session_payloads_front policy w (encodeSessionPayload_fits hhello) hfits
      (harrives.trans hpart)).trans hms

/-- If a push returns `Ok` to what the receiver sent, the two nodes have the same
    commitment; and if all bytes arrive, the message is handled once. -/
theorem push_handled {what peer : String} {policy : SessionPolicy} {w : Surroundings}
    {n : NodeInner} {a a' b : Stream} {g : Genesis} {height : UInt64} {message : Option Bytes}
    (hpush : pushMessage what peer (.ok a) g height message = (some (.ok ()), .ok a'))
    (ha : a.sent = []) (harrives : b.incoming <+: a'.sent) (hb : b.sent = []) (hw : b.writes = [])
    (hback : a.incoming <+: (serveConnection policy w b n).2.sent) :
    n.genesis.stateCommitmentHex = g.stateCommitmentHex ∧ n.store.poisoned = false ∧
      (b.incoming = a'.sent → 0 < policy.maxAppFramesPerSession →
        ∃ t, (serveConnection policy w b n).1.turns = [t] ∧ message = some t.payload ∧
          t.node = w.others 0 n ∧ t.nowUnix = w.clock 0 ∧ t.calls = w.calls 0 ∧
          t.counters = LoopCounters.zero.next) := by
  have hsafe := push_payloads_front policy w n hpush ha harrives
  rcases pushMessage_ok hpush with ⟨hello, msg, hhello, rfl, hmax, hne, hsent⟩
  rw [ha, List.nil_append] at hsent
  -- The receiver has sent something, so its session has started.
  have hstarts : (peerSessionSetup b n).1 = .ok () := by
    by_contra hfail
    have hnothing := (peerSessionSetup_sent b n).2 hw hfail
    unfold serveConnection at hback
    rcases hsetup : peerSessionSetup b n with ⟨e | _, b₁⟩
    · rw [hsetup] at hnothing
      simp only [hsetup] at hback hnothing
      rw [hnothing, hb, List.prefix_nil] at hback
      exact hne hback
    · exact hfail (by rw [hsetup])
  rcases hsetup : peerSessionSetup b n with ⟨_, b₁⟩
  rw [hsetup] at hstarts
  simp only at hstarts
  subst hstarts
  rw [hsent] at harrives
  refine ⟨setup_same_commitment hhello harrives hsetup, (peerSessionSetup_ok hsetup).1, ?_⟩
  intro hall happ
  -- Behind the HELLO nothing but the message is left.
  have hmsg : b₁.incoming = frameOnWire msg := by
    rcases peerSessionSetup_ok hsetup with ⟨_, _, hex, height', _, hin, hfits, _⟩
    rw [hin, hsent, List.flatMap_cons, List.flatMap_singleton] at hall
    exact (frameOnWire_append_inj hfits (encodeSessionPayload_fits hhello) hall).2
  have hread : readFramed b₁ = (.ok msg, { b₁ with incoming := [] }) :=
    readFramed_ok_iff.mpr ⟨hmax, [], by rw [hmsg, List.append_nil], rfl⟩
  unfold serveConnection at hsafe ⊢
  simp only [hsetup] at hsafe ⊢
  rcases connectionLoop_handles w maxFramesPerInboundSession.toNat n hread happ with
    ⟨t, later, hturns, _⟩
  rcases connectionLoop_head hturns with ⟨hnode, hnow, hcalls, hcount⟩
  -- No second frame was handled, as there is only one message.
  rw [hturns, List.map_cons, Option.toList_some, List.cons_prefix_cons, List.prefix_nil,
    List.map_eq_nil_iff] at hsafe
  rcases hsafe with ⟨hpay, rfl⟩
  exact ⟨t, hturns, by rw [hpay], hnode, hnow, hcalls, hcount⟩

/-- A message that is pushed arrives whole or not at all. Let the bytes that
    arrive be a first part of what a push sent. Then the receiver handles nothing
    or the message and nothing else. If the push returns `Ok` to what the receiver
    sent, the two nodes have the same commitment; and if all bytes arrive, the
    message is handled once, by the node as it then is. -/
theorem push_delivery (what peer : String) (policy : SessionPolicy) (w : Surroundings)
    (n : NodeInner) (a a' b : Stream) (g : Genesis) (height : UInt64) (message : Option Bytes)
    (r : Option (Except String Unit))
    (hpush : pushMessage what peer (.ok a) g height message = (r, .ok a')) (ha : a.sent = [])
    (harrives : b.incoming <+: a'.sent) :
    (serveConnection policy w b n).1.turns.map Turn.payload <+: message.toList ∧
    (r = some (.ok ()) → b.sent = [] → b.writes = [] →
      a.incoming <+: (serveConnection policy w b n).2.sent →
      n.genesis.stateCommitmentHex = g.stateCommitmentHex ∧ n.store.poisoned = false ∧
      (b.incoming = a'.sent → 0 < policy.maxAppFramesPerSession →
        ∃ t, (serveConnection policy w b n).1.turns = [t] ∧ message = some t.payload ∧
          t.node = w.others 0 n ∧ t.nowUnix = w.clock 0 ∧ t.calls = w.calls 0 ∧
          t.counters = LoopCounters.zero.next)) := by
  refine ⟨push_payloads_front policy w n hpush ha harrives, ?_⟩
  intro hok hb hw hback
  subst hok
  exact push_handled hpush ha harrives hb hw hback

end Serve

/-! ### A sample push -/

namespace Sample

/-- Limits that let one message through. -/
def onlyOne : SessionPolicy :=
  { maxInvalidNetworkBlocksPerSession := 1, maxStaleDecodedBlocksPerSession := 1,
    maxProtocolErrorsPerSession := 1, maxAppFramesPerSession := 1, maxInboundTxPerSession := 1 }

/-- Nothing else happens, and every write succeeds. -/
def calm : Surroundings :=
  { others := fun _ n => n, clock := fun _ => 0, calls := fun _ => .succeeds }

/-- The node at the other end. -/
def listener : NodeInner :=
  { genesis := genesis, chain := start, pool := .new 8,
    store := { file := [], poisoned := false, format := .v2, v2MagicOnDisk := false } }

/-- The node has frames for a handshake. -/
theorem exists_session : ∃ hello ack, encodeSessionPayload opSessionHello genesis 0 = .ok hello ∧
    encodeSessionPayload opSessionHelloAck genesis 0 = .ok ack := by
  have hhex := (Genesis.stateCommitmentHex_ok_iff genesis _).mpr ⟨_, sortedPairs_genesis, rfl⟩
  exact ⟨_, _, encodeSessionPayload_ok_iff.mpr ⟨_, hhex, rfl⟩,
    encodeSessionPayload_ok_iff.mpr ⟨_, hhex, rfl⟩⟩

/-- One end of a new connection, at which two things arrive. -/
def endpoint (first more : Bytes) : Stream :=
  ⟨frameOnWire first ++ more, .other "", [], []⟩

section Shake

variable {hello ack : Bytes} (hhello : encodeSessionPayload opSessionHello genesis 0 = .ok hello)
  (hack : encodeSessionPayload opSessionHelloAck genesis 0 = .ok ack)

include hhello hack

theorem handshakeInitiator_endpoint (more : Bytes) :
    handshakeInitiator (endpoint ack more) genesis 0 =
      (.ok (), ⟨more, .other "", [], frameOnWire hello⟩) :=
  handshakeInitiator_ok_iff.mpr ⟨hello, _, ack, hhello,
    writeFramed_of_writes_nil (encodeSessionPayload_fits hhello) rfl,
    readFramed_ok_iff.mpr ⟨encodeSessionPayload_fits hack, more, rfl, rfl⟩,
    (checkSessionPeer_ok_iff hack).mpr rfl⟩

theorem peerSessionSetup_endpoint (more : Bytes) :
    peerSessionSetup (endpoint hello more) listener =
      (.ok (), ⟨more, .other "", [], frameOnWire ack⟩) := by
  have hread : readFramed (endpoint hello more) = (.ok hello, ⟨more, .other "", [], []⟩) :=
    readFramed_ok_iff.mpr ⟨encodeSessionPayload_fits hhello, more, rfl, rfl⟩
  unfold peerSessionSetup
  rw [if_neg (by decide)]
  exact handshakeResponder_ok_iff.mpr ⟨hello, _, ack, hread,
    (checkSessionPeer_ok_iff hhello).mpr rfl, hack,
    writeFramed_of_writes_nil (encodeSessionPayload_fits hack) rfl⟩

/-- A message that fits is pushed. -/
theorem pushMessage_endpoint (what : String) {msg : Bytes} (h : msg.length ≤ maxWireFrameBytes) :
    pushMessage what "peer" (.ok (endpoint ack [])) genesis 0 (some msg) =
      (some (.ok ()), .ok ⟨[], .other "", [], (endpoint hello (frameOnWire msg)).incoming⟩) := by
  have hwrite : writeFramed ⟨[], .other "", [], frameOnWire hello⟩ msg = _ :=
    writeFramed_of_writes_nil h rfl
  unfold pushMessage
  simp only [handshakeInitiator_endpoint hhello hack, hwrite]
  rfl

/-- The other end acknowledges before it reads on. -/
theorem ack_sent (more : Bytes) : (endpoint ack []).incoming <+:
    (serveConnection onlyOne calm (endpoint hello more) listener).2.sent := by
  unfold serveConnection
  simp only [peerSessionSetup_endpoint hhello hack]
  rw [(connectionLoop_serves onlyOne calm _ 0 _ listener .zero).sent_all rfl, endpoint,
    List.append_nil]
  exact List.prefix_append _ _

end Shake

theorem valid_payment : payment.Valid := by
  have hvalid := ((Blockchain.appendBlock_ok_iff start chain block).mp appendBlock_chain).1
  exact ((Block.basicValidate_ok_iff_of_height block (by decide)).mp hvalid).transactions_valid
    payment List.mem_cons_self

/-- The payment is handled by the node at the other end. -/
theorem push_delivery_payment :
    ∃ y t, (serveConnection onlyOne calm y listener).1.turns = [t] ∧
      txMessage payment = some t.payload := by
  rcases exists_session with ⟨hello, ack, hhello, hack⟩
  rcases valid_payment.encodes with ⟨enc, henc, hlen⟩
  have hfits : (opTx :: enc).length ≤ maxWireFrameBytes := by
    have hreceiver := valid_payment.receiver_length
    rw [List.length_cons, hlen]
    unfold maxWireFrameBytes
    omega
  have hmsg : txMessage payment = some (opTx :: enc) := by
    rw [txMessage, henc]
    rfl
  rcases (push_delivery "push_tx" "peer" onlyOne calm listener (endpoint ack []) _
    (endpoint hello (frameOnWire (opTx :: enc))) genesis 0 (some (opTx :: enc)) _
    (pushMessage_endpoint hhello hack "push_tx" hfits) rfl (List.prefix_refl _)).2 rfl rfl rfl
    (ack_sent hhello hack _) with ⟨_, _, hall⟩
  rcases hall rfl (by decide) with ⟨t, hturns, hpay, _⟩
  exact ⟨_, t, hturns, hmsg.trans hpay⟩

end Sample

end Trilogicon
