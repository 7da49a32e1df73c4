import GameCredits.Framework.Framing
import GameCredits.Model.Net

/-!
# Messages are delivered as they were sent

What a stream of bytes means is stated once, as the framing `messages`: a header, then as many bytes
as it says, at most `MAX_PROTOCOL_MESSAGE_LENGTH`.

* `receiveChunks_splits`: what `ReceiveMsgBytes` makes of chunks is what their concatenation splits
  into, wherever they are cut.
* `sendFrom_spec`: what `SocketSendData` hands to the socket is the beginning of what is queued, and
  the rest stays queued.
* `net_lossless`: over any run of a connection, the messages received are the messages sent.
-/

namespace GC

open Framework

/-! ## Buffers -/

theorem length_memcpy {buf src : Bytes} {pos : Nat} (h : pos + src.length ≤ buf.length) :
    (memcpy buf pos src).length = buf.length := by
  simp only [memcpy, List.length_append, List.length_take, List.length_drop]
  omega

/-- The bytes before the end of what was copied. -/
theorem take_memcpy {buf src : Bytes} {pos : Nat} (h : pos ≤ buf.length) :
    (memcpy buf pos src).take (pos + src.length) = buf.take pos ++ src := by
  have hlen : (buf.take pos ++ src).length = pos + src.length := by
    rw [List.length_append, List.length_take, Nat.min_eq_left h]
  rw [memcpy, ← hlen, List.take_left]

theorem memcpy_append (a b c src : Bytes) (h : src.length = b.length) :
    memcpy (a ++ (b ++ c)) a.length src = a ++ (src ++ c) := by
  rw [memcpy, List.take_left, h, ← List.drop_drop, List.drop_left, List.drop_left,
    List.append_assoc]

theorem length_resizeBytes (buf : Bytes) (n : Nat) : (resizeBytes buf n).length = n := by
  simp only [resizeBytes, List.length_append, List.length_take, List.length_replicate]
  omega

theorem take_resizeBytes {buf : Bytes} {n k : Nat} (hk : k ≤ buf.length) (hn : k ≤ n) :
    (resizeBytes buf n).take k = buf.take k := by
  rw [resizeBytes, List.take_append_of_le_length (by rw [List.length_take]; omega),
    List.take_take, Nat.min_eq_left hn]

theorem length_strncpy (command : NetCommand) :
    (strncpy command.psz COMMAND_SIZE).length = COMMAND_SIZE := by
  have := command.length_le
  simp only [strncpy, List.length_append, List.length_take, List.length_replicate]
  omega

/-- The command is read back from its field. -/
theorem takeWhile_strncpy (command : NetCommand) :
    (strncpy command.psz COMMAND_SIZE).takeWhile (· != 0) = command.psz := by
  have hnz : ∀ c ∈ command.psz, (c != 0) = true := fun c hc => by simpa using command.ne_zero c hc
  rw [strncpy, List.take_of_length_le command.length_le, List.takeWhile_append_of_pos hnz,
    List.takeWhile_replicate_eq_filter]
  simp

/-! ## Headers -/

namespace CMessageHeader

/-- The header in the first bytes of a stream. -/
def ofBytes (s : Bytes) : CMessageHeader :=
  ⟨s.take 4, (s.drop 4).take 12, leNat ((s.drop 16).take 4), leNat ((s.drop 20).take 4)⟩

theorem read_run {s : Bytes} (h : s.length = 24) :
    CMessageHeader.read.run s = some (.ofBytes s, []) := by
  have hget : ∀ {n : Nat} {s : Bytes}, n ≤ s.length →
      (getBytes n).run s = some (s.take n, s.drop n) := fun hn => if_pos hn
  have hle : ∀ {n : Nat} {s : Bytes}, n ≤ s.length →
      (getLE n).run s = some (leNat (s.take n), s.drop n) := fun hn => by
    rw [getLE, Get.run_bind_some (hget hn), Get.run_pure]
  have h4 : MESSAGE_START_SIZE ≤ s.length := by rw [h]; decide
  have h16 : COMMAND_SIZE ≤ (s.drop MESSAGE_START_SIZE).length := by rw [List.length_drop, h]; decide
  rw [read, Get.run_bind_some (hget h4), Get.run_bind_some (hget h16),
    Get.run_bind_some (hle (by rw [List.length_drop, List.length_drop, h]; decide)),
    Get.run_bind_some (hle (by rw [List.length_drop, List.length_drop, List.length_drop, h]; decide)),
    Get.run_pure]
  have hnil : s.drop (4 + 12 + 4 + 4) = [] := List.drop_of_length_le (by omega)
  simp only [List.drop_drop, MESSAGE_START_SIZE, COMMAND_SIZE, ofBytes, hnil]

theorem ofBytes_take (s : Bytes) : ofBytes (s.take 24) = ofBytes s := by
  simp only [ofBytes, List.take_take, List.drop_take]
  rfl

theorem ofBytes_append {s : Bytes} (h : 24 ≤ s.length) (t : Bytes) : ofBytes (s ++ t) = ofBytes s := by
  rw [← ofBytes_take, List.take_append_of_le_length h, ofBytes_take]

end CMessageHeader

/-! ## The framing -/

/-- What the beginning of a stream of messages says. -/
def nextMessage (s : Bytes) : Decision (CMessageHeader × Bytes) :=
  let hdr := CMessageHeader.ofBytes s
  if s.length < 24 then .more
  else if MAX_PROTOCOL_MESSAGE_LENGTH < hdr.nMessageSize then .reject
  else if s.length < 24 + hdr.nMessageSize then .more
  else .frame (hdr, (s.drop 24).take hdr.nMessageSize) (24 + hdr.nMessageSize)

/-- Messages as frames of a stream. -/
def messages : Framing (CMessageHeader × Bytes) where
  next := nextMessage
  size {s a n} h := by
    simp only [nextMessage] at h
    split_ifs at h
    cases h
    omega
  frame_append {s a n} h t := by
    simp only [nextMessage] at h ⊢
    split_ifs at h with h24 hmax hlen
    have h24' : 24 ≤ s.length := Nat.not_lt.mp h24
    have hle : (CMessageHeader.ofBytes s).nMessageSize ≤ (s.drop 24).length := by
      rw [List.length_drop]; omega
    rw [CMessageHeader.ofBytes_append h24', List.length_append, if_neg (by omega), if_neg hmax,
      if_neg (by omega), List.drop_append_of_le_length h24', List.take_append_of_le_length hle]
    exact h
  reject_append {s} h t := by
    simp only [nextMessage] at h ⊢
    split_ifs at h with h24 hmax
    rw [CMessageHeader.ofBytes_append (Nat.not_lt.mp h24), List.length_append, if_neg (by omega),
      if_pos hmax]

/-! ## One message -/

/-- An incomplete message that has absorbed `s`. -/
inductive Absorbing (msg : CNetMessage) (s : Bytes) : Prop
  | header (hphase : msg.inData = false) (hpos : msg.nHdrPos = s.length) (hlt : s.length < 24)
      (hlen : msg.hdrbuf.length = 24) (hbuf : msg.hdrbuf.take s.length = s)
      (hvRecv : msg.vRecv = []) (hdataPos : msg.nDataPos = 0)
  | data (hphase : msg.inData = true) (hhdr : msg.hdr = .ofBytes s) (hle : 24 ≤ s.length)
      (hlt : s.length < 24 + msg.hdr.nMessageSize)
      (hmax : msg.hdr.nMessageSize ≤ MAX_PROTOCOL_MESSAGE_LENGTH)
      (hpos : msg.nDataPos = s.length - 24) (hbuf : msg.vRecv.take msg.nDataPos = s.drop 24)
      (hvRecv : msg.vRecv.length ≤ msg.hdr.nMessageSize)

theorem absorbing_new (params : NetParams) : Absorbing (.new params) [] :=
  .header rfl rfl (by decide) rfl rfl rfl rfl

theorem Absorbing.not_complete {msg : CNetMessage} {s : Bytes} (h : Absorbing msg s) :
    msg.complete = false := by
  cases h with
  | header hphase => rw [CNetMessage.complete, hphase, Bool.false_and]
  | data _ _ _ hlt _ hpos =>
    have hne : msg.hdr.nMessageSize ≠ msg.nDataPos := by omega
    rw [CNetMessage.complete, beq_eq_false_iff_ne.mpr hne, Bool.and_false]

theorem Absorbing.next {msg : CNetMessage} {s : Bytes} (h : Absorbing msg s) :
    messages.next s = .more := by
  show nextMessage s = .more
  cases h with
  | header _ _ hlt => exact if_pos hlt
  | data _ hhdr hle hlt hmax =>
    rw [hhdr] at hlt hmax
    simp only [nextMessage]
    rw [if_neg (by omega), if_neg (by omega), if_pos hlt]

/-- A message that has absorbed the frame `s`. -/
structure Absorbed (msg : CNetMessage) (s : Bytes) : Prop where
  complete : msg.complete = true
  next : messages.next s = .frame (msg.hdr, msg.vRecv) s.length

theorem Absorbed.not_oversized {msg : CNetMessage} {s : Bytes} (h : Absorbed msg s) :
    msg.hdr.nMessageSize ≤ MAX_PROTOCOL_MESSAGE_LENGTH := by
  have hnext : nextMessage s = .frame (msg.hdr, msg.vRecv) s.length := h.next
  simp only [nextMessage] at hnext
  split_ifs at hnext with h24 hmax hlen
  obtain ⟨hframe, -⟩ := Decision.frame.inj hnext
  rw [← (Prod.mk.inj hframe).1]
  exact Nat.not_lt.mp hmax

/-- A message over the limit of the protocol, which `ReceiveMsgBytes` rejects. -/
def CNetMessage.oversized (msg : CNetMessage) : Bool :=
  msg.inData && decide (MAX_PROTOCOL_MESSAGE_LENGTH < msg.hdr.nMessageSize)

/-- What reading from `pch` makes of a message that has absorbed `s`. -/
inductive Absorbs (s pch : Bytes) : Option Nat × CNetMessage → Prop
  | handled {handled msg} (hpos : 0 < handled) (hle : handled ≤ pch.length)
      (h : Absorbing msg (s ++ pch.take handled) ∨ Absorbed msg (s ++ pch.take handled)) :
      Absorbs s pch (some handled, msg)
  | reject {handled msg} (hbad : handled = none ∨ msg.oversized = true)
      (hnext : messages.next (s ++ pch) = .reject) (hcomplete : msg.complete = false) :
      Absorbs s pch (handled, msg)

theorem not_oversized {msg : CNetMessage} {s : Bytes} (h : Absorbing msg s ∨ Absorbed msg s) :
    msg.oversized = false := by
  rcases h with h | h
  · cases h with
    | header hphase => rw [CNetMessage.oversized, hphase, Bool.false_and]
    | data _ _ _ _ hmax =>
      rw [CNetMessage.oversized, decide_eq_false (Nat.not_lt.mpr hmax), Bool.and_false]
  · rw [CNetMessage.oversized, decide_eq_false (Nat.not_lt.mpr h.not_oversized), Bool.and_false]

theorem readHeader_absorbs {msg : CNetMessage} {s pch : Bytes} (h : Absorbing msg s)
    (hphase : msg.inData = false) (hpch : pch ≠ []) : Absorbs s pch (msg.readHeader pch) := by
  cases h with
  | data htrue => rw [hphase] at htrue; cases htrue
  | header _ hpos hlt hlen hbuf hvRecv hdataPos =>
    have hpch : 0 < pch.length := List.length_pos_iff.mpr hpch
    obtain ⟨n, hn⟩ : ∃ n, n = min (24 - s.length) pch.length := ⟨_, rfl⟩
    have htlen : (pch.take n).length = n := by rw [List.length_take]; omega
    have hbuf' : (memcpy msg.hdrbuf s.length (pch.take n)).take (s.length + n) = s ++ pch.take n := by
      have := @take_memcpy msg.hdrbuf (pch.take n) _ (show s.length ≤ msg.hdrbuf.length by omega)
      rwa [htlen, hbuf] at this
    have hlen' : (memcpy msg.hdrbuf s.length (pch.take n)).length = 24 := by
      rw [length_memcpy (by omega), hlen]
    have hslen : (s ++ pch.take n).length = s.length + n := by rw [List.length_append, htlen]
    simp only [CNetMessage.readHeader, hpos, ← hn]
    by_cases hfull : s.length + n < 24
    · rw [if_pos hfull]
      refine .handled (by omega) (by omega) (.inl (.header hphase hslen.symm (by omega) hlen' ?_
        hvRecv hdataPos))
      rw [hslen]
      exact hbuf'
    · have h24 : s.length + n = 24 := by omega
      have hwhole : memcpy msg.hdrbuf s.length (pch.take n) = s ++ pch.take n := by
        rw [← hbuf', h24, List.take_of_length_le hlen'.le]
      have hsplit : s ++ pch = (s ++ pch.take n) ++ pch.drop n := by
        rw [List.append_assoc, List.take_append_drop]
      have hreject : MAX_PROTOCOL_MESSAGE_LENGTH < (CMessageHeader.ofBytes (s ++ pch.take n)).nMessageSize →
          messages.next (s ++ pch) = .reject := fun hmax => by
        rw [hsplit]
        refine messages.reject_append ?_ _
        show nextMessage _ = _
        simp only [nextMessage]
        rw [if_neg (by omega), if_pos hmax]
      rw [if_neg hfull, hwhole, CMessageHeader.read_run (hslen.trans h24)]
      show Absorbs s pch (if _ then _ else _)
      by_cases hmaxSize : MAX_SIZE < (CMessageHeader.ofBytes (s ++ pch.take n)).nMessageSize
      · rw [if_pos hmaxSize]
        refine .reject (.inl rfl) (hreject (lt_trans (by decide) hmaxSize)) ?_
        rw [CNetMessage.complete, hphase, Bool.false_and]
      · rw [if_neg hmaxSize]
        by_cases hmax : MAX_PROTOCOL_MESSAGE_LENGTH <
            (CMessageHeader.ofBytes (s ++ pch.take n)).nMessageSize
        · refine .reject (.inr (by simp [CNetMessage.oversized, hmax])) (hreject hmax) ?_
          have hne : (CMessageHeader.ofBytes (s ++ pch.take n)).nMessageSize ≠ 0 := by omega
          simp [CNetMessage.complete, hdataPos, hne]
        · refine .handled (by omega) (by omega) ?_
          by_cases hzero : (CMessageHeader.ofBytes (s ++ pch.take n)).nMessageSize = 0
          · refine .inr ⟨by simp [CNetMessage.complete, hzero, hdataPos], ?_⟩
            show nextMessage _ = _
            simp only [nextMessage]
            rw [if_neg (by omega), if_neg hmax, if_neg (by omega), hzero, hvRecv, hslen, h24]
            rfl
          · refine .inl (.data rfl rfl (by omega) ?_ (Nat.not_lt.mp hmax) ?_ ?_ ?_)
            · show _ < 24 + (CMessageHeader.ofBytes (s ++ pch.take n)).nMessageSize
              omega
            · rw [hdataPos, hslen, h24]
            · rw [hdataPos, List.take_zero, List.drop_of_length_le (by omega)]
            · rw [hvRecv]
              exact Nat.zero_le _

theorem readData_absorbs {msg : CNetMessage} {s pch : Bytes} (h : Absorbing msg s)
    (hphase : msg.inData = true) (hpch : pch ≠ []) : Absorbs s pch (msg.readData pch) := by
  cases h with
  | header hfalse => rw [hphase] at hfalse; cases hfalse
  | data _ hhdr hle hlt hmax hpos hbuf hvRecv =>
    have hpch : 0 < pch.length := List.length_pos_iff.mpr hpch
    obtain ⟨n, hn⟩ : ∃ n, n = min (msg.hdr.nMessageSize - msg.nDataPos) pch.length := ⟨_, rfl⟩
    have htlen : (pch.take n).length = n := by rw [List.length_take]; omega
    have hposle : msg.nDataPos ≤ msg.vRecv.length := by
      have := congrArg List.length hbuf
      rw [List.length_take, List.length_drop] at this
      omega
    -- the buffer after it has grown: as before up to the position, and long enough
    obtain ⟨buf, hgrow⟩ : ∃ buf, buf =
        if msg.vRecv.length < msg.nDataPos + n then
          resizeBytes msg.vRecv (min msg.hdr.nMessageSize (msg.nDataPos + n + 256 * 1024))
        else msg.vRecv := ⟨_, rfl⟩
    have hgrown : buf.take msg.nDataPos = s.drop 24 ∧ msg.nDataPos + n ≤ buf.length ∧
        buf.length ≤ msg.hdr.nMessageSize := by
      rw [hgrow]
      split_ifs with hshort
      · rw [length_resizeBytes, take_resizeBytes hposle (by omega)]
        exact ⟨hbuf, by omega, by omega⟩
      · exact ⟨hbuf, by omega, hvRecv⟩
    obtain ⟨hbufTake, hbufLe, hbufMax⟩ := hgrown
    have hslen : (s ++ pch.take n).length = s.length + n := by rw [List.length_append, htlen]
    have hdrop : (s ++ pch.take n).drop 24 = s.drop 24 ++ pch.take n :=
      List.drop_append_of_le_length hle
    have hlen' : (memcpy buf msg.nDataPos (pch.take n)).length = buf.length :=
      length_memcpy (by omega)
    have hbuf' : (memcpy buf msg.nDataPos (pch.take n)).take (msg.nDataPos + n) =
        (s ++ pch.take n).drop 24 := by
      have := @take_memcpy buf (pch.take n) _ (show msg.nDataPos ≤ buf.length by omega)
      rwa [htlen, hbufTake, ← hdrop] at this
    have hhdr' : msg.hdr = .ofBytes (s ++ pch.take n) := by
      rw [CMessageHeader.ofBytes_append hle, hhdr]
    simp only [CNetMessage.readData, ← hn, ← hgrow]
    refine .handled (by omega) (by omega) ?_
    by_cases hfull : msg.nDataPos + n < msg.hdr.nMessageSize
    · refine .inl (.data hphase hhdr' (by omega) ?_ hmax ?_ hbuf' (hlen'.trans_le hbufMax))
      · show _ < 24 + msg.hdr.nMessageSize
        omega
      · show msg.nDataPos + n = _
        omega
    · have hend : msg.nDataPos + n = msg.hdr.nMessageSize := by omega
      refine .inr ⟨by simp [CNetMessage.complete, hphase, hend], ?_⟩
      show nextMessage _ = .frame (msg.hdr, memcpy buf msg.nDataPos (pch.take n)) _
      have hvRecv' : memcpy buf msg.nDataPos (pch.take n) = (s ++ pch.take n).drop 24 := by
        have hall := List.take_of_length_le
          (show (memcpy buf msg.nDataPos (pch.take n)).length ≤ msg.nDataPos + n by omega)
        rw [← hbuf', hall]
      simp only [nextMessage]
      rw [← hhdr', if_neg (by omega), if_neg (by omega), if_neg (by omega), hvRecv',
        List.take_of_length_le (by rw [List.length_drop]; omega), hslen]
      congr 1
      omega

/-! ## The messages of a node -/

/-- Messages that have absorbed `frames` and the bytes `s` of an incomplete one. -/
inductive Received (frames : List (CMessageHeader × Bytes)) (s : Bytes) :
    List CNetMessage → Prop
  | whole {vRecvMsg} (hall : ∀ msg ∈ vRecvMsg, msg.complete = true)
      (hframes : (vRecvMsg.map fun msg => (msg.hdr, msg.vRecv)) = frames) (hs : s = []) :
      Received frames s vRecvMsg
  | incomplete {before msg} (hall : ∀ msg ∈ before, msg.complete = true)
      (hframes : (before.map fun msg => (msg.hdr, msg.vRecv)) = frames) (h : Absorbing msg s) :
      Received frames s (before ++ [msg])

variable {frames : List (CMessageHeader × Bytes)} {s : Bytes} {vRecvMsg : List CNetMessage}

theorem completed_eq {before : List CNetMessage} (hall : ∀ msg ∈ before, msg.complete = true) :
    completed before = before.map fun msg => (msg.hdr, msg.vRecv) := by
  rw [completed, List.filter_eq_self.mpr hall]

theorem completed_append {before : List CNetMessage} {msg : CNetMessage}
    (hall : ∀ msg ∈ before, msg.complete = true) (h : msg.complete = false) :
    completed (before ++ [msg]) = before.map fun msg => (msg.hdr, msg.vRecv) := by
  rw [completed, List.filter_append, List.filter_eq_self.mpr hall]
  simp [h]

theorem Received.completed (h : Received frames s vRecvMsg) : completed vRecvMsg = frames := by
  cases h with
  | whole hall hframes => rw [completed_eq hall, hframes]
  | incomplete hall hframes h => rw [completed_append hall h.not_complete, hframes]

theorem Received.next (h : Received frames s vRecvMsg) : messages.next s = .more := by
  cases h with
  | whole _ _ hs => rw [hs]; rfl
  | incomplete _ _ h => exact h.next

/-- The message that the next bytes are for. -/
theorem Received.currentMessage (params : NetParams) (h : Received frames s vRecvMsg) :
    ∃ before msg, currentMessage params vRecvMsg = (before, msg) ∧ Absorbing msg s ∧
      (∀ msg ∈ before, msg.complete = true) ∧
      (before.map fun msg => (msg.hdr, msg.vRecv)) = frames := by
  cases h with
  | whole hall hframes hs =>
    subst hs
    refine ⟨vRecvMsg, .new params, ?_, absorbing_new params, hall, hframes⟩
    rw [GC.currentMessage]
    cases hlast : vRecvMsg.getLast? with
    | none => rw [List.getLast?_eq_none_iff.mp hlast]
    | some msg =>
      simp only
      rw [if_pos (hall msg (List.mem_of_getLast? hlast))]
  | @incomplete before msg hall hframes h =>
    refine ⟨before, msg, ?_, h, hall, hframes⟩
    rw [GC.currentMessage, List.getLast?_concat]
    simp only
    rw [h.not_complete, if_neg (by decide), List.dropLast_concat]

/-- What `pch` has made of messages that have absorbed the stream `s` of an incomplete one. -/
inductive Receives (frames : List (CMessageHeader × Bytes)) (s pch : Bytes) :
    Bool × List CNetMessage → Prop
  | ok {vRecvMsg frames' left} (hsplits : messages.Splits (s ++ pch) frames' (some left))
      (h : Received (frames ++ frames') left vRecvMsg) : Receives frames s pch (true, vRecvMsg)
  | reject {vRecvMsg frames'} (hsplits : messages.Splits (s ++ pch) frames' none)
      (h : completed vRecvMsg = frames ++ frames') : Receives frames s pch (false, vRecvMsg)

/-- Nothing is received of no bytes. -/
theorem Receives.nil (h : Received frames s vRecvMsg) : Receives frames s [] (true, vRecvMsg) := by
  have hmore : messages.Splits (s ++ []) [] (some s) := by
    rw [List.append_nil]
    exact .more h.next
  refine .ok hmore ?_
  rwa [List.append_nil]

/-- What is received after a part of `pch` was absorbed. -/
theorem Receives.of_part {frames' : List (CMessageHeader × Bytes)} {t u left : Bytes}
    {r : Bool × List CNetMessage} (hsplits : messages.Splits (s ++ t) frames' (some left))
    (h : Receives (frames ++ frames') left u r) : Receives frames s (t ++ u) r := by
  cases h with
  | ok hsplits' h =>
    rw [List.append_assoc] at h
    refine .ok ?_ h
    rw [← List.append_assoc]
    exact hsplits.append hsplits'
  | reject hsplits' h =>
    rw [List.append_assoc] at h
    refine .reject ?_ h
    rw [← List.append_assoc]
    exact hsplits.append hsplits'

/-- Each iteration absorbs some of `pch`; by induction on the bound on the iterations. -/
theorem receiveFrom_receives (params : NetParams) {fuel : Nat} {pch : Bytes}
    (hfuel : pch.length ≤ fuel) (h : Received frames s vRecvMsg) :
    Receives frames s pch (receiveFrom params fuel vRecvMsg pch) := by
  induction fuel generalizing vRecvMsg frames s pch with
  | zero =>
    have hnil : pch = [] := List.eq_nil_of_length_eq_zero (Nat.le_zero.mp hfuel)
    subst hnil
    exact .nil h
  | succ fuel ih =>
    cases pch with
    | nil => exact .nil h
    | cons b pch =>
      obtain ⟨before, msg, hcurrent, habs, hall, hframes⟩ := h.currentMessage params
      have hread : Absorbs s (b :: pch)
          (if msg.inData then msg.readData (b :: pch) else msg.readHeader (b :: pch)) := by
        cases hphase : msg.inData with
        | true => exact readData_absorbs habs hphase (List.cons_ne_nil b pch)
        | false => exact readHeader_absorbs habs hphase (List.cons_ne_nil b pch)
      simp only [receiveFrom, hcurrent]
      generalize (if msg.inData = true then msg.readData (b :: pch)
        else msg.readHeader (b :: pch)) = r at hread ⊢
      generalize b :: pch = chunk at hfuel hread ⊢
      cases hread with
      | @handled handled msg' hpos hle h' =>
        have hsize : (msg'.inData && decide (MAX_PROTOCOL_MESSAGE_LENGTH < msg'.hdr.nMessageSize)) =
            false := not_oversized h'
        have hfuel' : (chunk.drop handled).length ≤ fuel := by rw [List.length_drop]; omega
        obtain ⟨t, u, rfl, ht, hu⟩ : ∃ t u, chunk = t ++ u ∧ chunk.take handled = t ∧
            chunk.drop handled = u := ⟨_, _, (List.take_append_drop handled chunk).symm, rfl, rfl⟩
        rw [ht] at h'
        rw [hu] at hfuel'
        simp only [hsize, Bool.false_eq_true, if_false, hu]
        rcases h' with h' | h'
        · have hpart : Received (frames ++ []) (s ++ t) (before ++ [msg']) := by
            rw [List.append_nil]
            exact .incomplete hall hframes h'
          exact .of_part (.more h'.next) (ih hfuel' hpart)
        · have hsplits : messages.Splits (s ++ t) [(msg'.hdr, msg'.vRecv)] (some []) := by
            refine .frame h'.next ?_
            rw [List.drop_length]
            exact .more rfl
          have hwhole : Received (frames ++ [(msg'.hdr, msg'.vRecv)]) [] (before ++ [msg']) := by
            refine .whole ?_ ?_ rfl
            · simp only [List.mem_append, List.mem_singleton]
              rintro msg (hmsg | rfl)
              · exact hall msg hmsg
              · exact h'.complete
            · rw [List.map_append, hframes, List.map_singleton]
          exact .of_part hsplits (ih hfuel' hwhole)
      | @reject handled msg' hbad hnext hcomplete =>
        have hrejected : Receives frames s chunk (false, before ++ [msg']) := by
          refine .reject (.reject hnext) ?_
          rw [completed_append hall hcomplete, hframes, List.append_nil]
        cases handled with
        | none => exact hrejected
        | some handled =>
          rcases hbad with hbad | hbad
          · cases hbad
          · simp only [show (msg'.inData && decide (MAX_PROTOCOL_MESSAGE_LENGTH <
              msg'.hdr.nMessageSize)) = true from hbad, if_true]
            exact hrejected

/-- What `ReceiveMsgBytes` makes of chunks depends on their concatenation only. -/
theorem receiveChunks_receives (params : NetParams) (chunks : List Bytes)
    (h : Received frames s vRecvMsg) :
    Receives frames s chunks.flatten (receiveChunks params vRecvMsg chunks) := by
  induction chunks generalizing vRecvMsg frames s with
  | nil => exact .nil h
  | cons pch chunks ih =>
    have hpch : Receives frames s pch (receiveMsgBytes params vRecvMsg pch) :=
      receiveFrom_receives params le_rfl h
    rw [List.flatten_cons, receiveChunks]
    generalize receiveMsgBytes params vRecvMsg pch = r at hpch ⊢
    cases hpch with
    | ok hsplits h' => exact .of_part hsplits (ih h')
    | reject hsplits h' =>
      refine .reject ?_ h'
      rw [← List.append_assoc]
      exact hsplits.append_none _

/-- Cut in any other way, the stream is received with the same outcome. -/
theorem Receives.unique {pch : Bytes} {r r' : Bool × List CNetMessage}
    (h : Receives frames s pch r) (h' : Receives frames s pch r') :
    r.1 = r'.1 ∧ GC.completed r.2 = GC.completed r'.2 := by
  cases h with
  | ok hs h =>
    cases h' with
    | ok hs' h' =>
      obtain ⟨rfl, -⟩ := hs.unique hs'
      exact ⟨rfl, by rw [h.completed, h'.completed]⟩
    | reject hs' => cases (hs.unique hs').2
  | reject hs h =>
    cases h' with
    | ok hs' => cases (hs.unique hs').2
    | reject hs' h' =>
      obtain ⟨rfl, -⟩ := hs.unique hs'
      exact ⟨rfl, by rw [h, h']⟩

/-! ## Encoded messages -/

namespace NetMessage

/-- The header that a message is sent with. -/
def header (params : NetParams) (message : NetMessage) : CMessageHeader :=
  ⟨params.messageStart, strncpy message.command.psz COMMAND_SIZE, message.payload.length,
    (params.hash message.payload).val % 256 ^ 4⟩

/-- A message as it is sent. -/
def bytes (params : NetParams) (message : NetMessage) : Bytes :=
  (message.header params).write ++ message.payload

end NetMessage

theorem leBytes_mod (n x : Nat) : leBytes n (x % 256 ^ n) = leBytes n x := by
  induction n generalizing x with
  | zero => rfl
  | succ n ih =>
    rw [leBytes, leBytes, Nat.pow_succ', Nat.mod_mul_right_mod, Nat.mod_mul_right_div_self, ih]

/-- The size and the checksum that `EndMessage` sets. -/
theorem finishMessage_eq (params : NetParams) (message : NetMessage) :
    CNode.finishMessage params ((CMessageHeader.new params message.command 0).write ++ message.payload) =
      message.bytes params := by
  obtain ⟨a, ha⟩ : ∃ a, a = params.messageStart ++ strncpy message.command.psz COMMAND_SIZE :=
    ⟨_, rfl⟩
  have halen : a.length = 16 := by
    rw [ha, List.length_append, params.length_messageStart, length_strncpy]
    rfl
  have hstart : (CMessageHeader.new params message.command 0).write ++ message.payload =
      a ++ (leBytes 4 0 ++ (leBytes 4 0 ++ message.payload)) := by
    rw [CMessageHeader.write, CMessageHeader.new, ha]
    simp only [List.append_assoc]
  have hsize : (a ++ (leBytes 4 0 ++ (leBytes 4 0 ++ message.payload))).length - HEADER_SIZE =
      message.payload.length := by
    simp only [List.length_append, length_leBytes, halen, HEADER_SIZE, MESSAGE_START_SIZE, COMMAND_SIZE]
    omega
  have hset : memcpy (a ++ (leBytes 4 0 ++ (leBytes 4 0 ++ message.payload))) MESSAGE_SIZE_OFFSET
      (leBytes 4 message.payload.length) =
        (a ++ leBytes 4 message.payload.length) ++ (leBytes 4 0 ++ message.payload) := by
    have := memcpy_append a (leBytes 4 0) (leBytes 4 0 ++ message.payload)
      (leBytes 4 message.payload.length) (by simp)
    rw [halen] at this
    rw [List.append_assoc]
    exact this
  have hblen : (a ++ leBytes 4 message.payload.length).length = 20 := by
    rw [List.length_append, halen, length_leBytes]
  have hdrop : ((a ++ leBytes 4 message.payload.length) ++ (leBytes 4 0 ++ message.payload)).drop
      HEADER_SIZE = message.payload := by
    rw [← List.append_assoc]
    refine List.drop_left' ?_
    rw [List.length_append, hblen, length_leBytes]
    rfl
  have hsum : ∀ sum, memcpy ((a ++ leBytes 4 message.payload.length) ++
      (leBytes 4 0 ++ message.payload)) CHECKSUM_OFFSET (leBytes 4 sum) =
        (a ++ leBytes 4 message.payload.length) ++ (leBytes 4 sum ++ message.payload) := fun sum => by
    have := memcpy_append (a ++ leBytes 4 message.payload.length) (leBytes 4 0) message.payload
      (leBytes 4 sum) (by simp)
    rwa [hblen] at this
  rw [hstart, CNode.finishMessage]
  simp only [hsize, hset, hdrop, hsum]
  rw [NetMessage.bytes, CMessageHeader.write, NetMessage.header, leBytes_mod, ← ha]
  simp only [List.append_assoc]

/-- A header is read from what was written. -/
theorem ofBytes_bytes (params : NetParams) {message : NetMessage}
    (hsize : message.payload.length ≤ MAX_PROTOCOL_MESSAGE_LENGTH) :
    CMessageHeader.ofBytes (message.bytes params) = message.header params := by
  have hstart : params.messageStart.length = 4 := params.length_messageStart
  have hcommand : (strncpy message.command.psz COMMAND_SIZE).length = 12 := length_strncpy _
  have hlt : message.payload.length < 256 ^ 4 := lt_of_le_of_lt hsize (by decide)
  have h4 : ∀ (x : Nat) (t : Bytes), (leBytes 4 x ++ t).take 4 = leBytes 4 x := fun x t =>
    List.take_left' (length_leBytes 4 x)
  rw [NetMessage.bytes, CMessageHeader.write, NetMessage.header, CMessageHeader.ofBytes]
  simp only [List.append_assoc]
  congr 1
  · exact List.take_left' hstart
  · rw [List.drop_left' hstart]
    exact List.take_left' hcommand
  · rw [← List.append_assoc, List.drop_left' (by rw [List.length_append, hstart, hcommand]), h4,
      leNat_leBytes, Nat.mod_eq_of_lt hlt]
  · rw [← List.append_assoc, ← List.append_assoc,
      List.drop_left' (by simp [hstart, hcommand]), h4, leNat_leBytes, Nat.mod_mod]

theorem length_bytes (params : NetParams) (message : NetMessage) :
    (message.bytes params).length = 24 + message.payload.length := by
  rw [NetMessage.bytes, CMessageHeader.write, NetMessage.header]
  simp only [List.length_append, length_leBytes, length_strncpy, params.length_messageStart]
  rfl

theorem next_bytes (params : NetParams) {message : NetMessage}
    (hsize : message.payload.length ≤ MAX_PROTOCOL_MESSAGE_LENGTH) :
    messages.next (message.bytes params) =
      .frame (message.header params, message.payload) (message.bytes params).length := by
  have hlen := length_bytes params message
  have hdrop : (message.bytes params).drop 24 = message.payload := by
    refine List.drop_left' ?_
    rw [NetMessage.bytes, List.length_append] at hlen
    omega
  have hn : (message.header params).nMessageSize = message.payload.length := rfl
  show nextMessage _ = _
  simp only [nextMessage]
  rw [ofBytes_bytes params hsize, hn, if_neg (by omega), if_neg (by omega), if_neg (by omega), hdrop,
    List.take_length, hlen]

/-- Messages one after another split into themselves. -/
theorem splits_bytes (params : NetParams) {sent : List NetMessage}
    (hsize : ∀ message ∈ sent, message.payload.length ≤ MAX_PROTOCOL_MESSAGE_LENGTH) :
    messages.Splits (sent.flatMap (NetMessage.bytes params))
      (sent.map fun message => (message.header params, message.payload)) (some []) := by
  have hput : ∀ a : CMessageHeader × Bytes,
      (∃ message : NetMessage, message.payload.length ≤ MAX_PROTOCOL_MESSAGE_LENGTH ∧
        a = (message.header params, message.payload)) →
      messages.next (a.1.write ++ a.2) = .frame a (a.1.write ++ a.2).length := by
    rintro _ ⟨message, hmessage, rfl⟩
    exact next_bytes params hmessage
  have hsent : ∀ a ∈ sent.map fun message => (message.header params, message.payload),
      ∃ message : NetMessage, message.payload.length ≤ MAX_PROTOCOL_MESSAGE_LENGTH ∧
        a = (message.header params, message.payload) := fun a ha => by
    obtain ⟨message, hmessage, rfl⟩ := List.mem_map.mp ha
    exact ⟨message, hsize message hmessage, rfl⟩
  have hsplits := messages.splits_encoded hput rfl hsent
  rwa [List.flatMap_map] at hsplits

/-! ## Sending -/

/-- Where the next byte to be sent is: in the first message, if there is one. -/
def OffsetOk (vSendMsg : List Bytes) (nSendOffset : Nat) : Prop :=
  match vSendMsg with
  | [] => nSendOffset = 0
  | data :: _ => nSendOffset < data.length

/-- What a sender maintains of its queue. -/
structure Queued (node : CNode) : Prop where
  ssSend : node.ssSend = []
  ne_nil : ∀ data ∈ node.vSendMsg, data ≠ []
  size : node.nSendSize = (node.vSendMsg.map List.length).sum
  offset : OffsetOk node.vSendMsg node.nSendOffset

/-- The bytes of the queue that were not handed to the socket. -/
def CNode.unsent (node : CNode) : Bytes := node.vSendMsg.flatten.drop node.nSendOffset

theorem offsetOk_zero {vSendMsg : List Bytes} (h : ∀ data ∈ vSendMsg, data ≠ []) :
    OffsetOk vSendMsg 0 := by
  cases vSendMsg with
  | nil => rfl
  | cons data _ => exact List.length_pos_iff.mpr (h data (List.mem_cons_self ..))

/-- What is handed to the socket and what stays queued, by induction on the queue: the loop goes on
to the next message when the last byte of one was taken. -/
theorem sendFrom_spec {vSendMsg : List Bytes} {nSendOffset nSendSize : Nat} (outcomes : List Nat)
    (hne : ∀ data ∈ vSendMsg, data ≠ []) (hsize : nSendSize = (vSendMsg.map List.length).sum)
    (hoffset : OffsetOk vSendMsg nSendOffset) :
    ∃ r, sendFrom vSendMsg nSendOffset nSendSize outcomes = some r ∧
      r.taken ++ r.vSendMsg.flatten.drop r.nSendOffset = vSendMsg.flatten.drop nSendOffset ∧
      (∀ data ∈ r.vSendMsg, data ≠ []) ∧ r.nSendSize = (r.vSendMsg.map List.length).sum ∧
      OffsetOk r.vSendMsg r.nSendOffset := by
  induction vSendMsg generalizing nSendOffset nSendSize outcomes with
  | nil =>
    have h0 : nSendOffset = 0 := hoffset
    subst h0 hsize
    exact ⟨_, if_pos ⟨rfl, rfl⟩, rfl, hne, rfl, rfl⟩
  | cons data vSendMsg ih =>
    have hlt : nSendOffset < data.length := hoffset
    cases outcomes with
    | nil =>
      rw [sendFrom, if_pos hlt]
      exact ⟨_, rfl, rfl, hne, hsize, hoffset⟩
    | cons ready outcomes =>
      rw [sendFrom, if_pos hlt]
      obtain ⟨n, hn⟩ : ∃ n, n = min ready (data.length - nSendOffset) := ⟨_, rfl⟩
      simp only [← hn]
      by_cases hblock : n = 0
      · rw [if_pos hblock]
        exact ⟨_, rfl, rfl, hne, hsize, hoffset⟩
      rw [if_neg hblock, List.flatten_cons, List.drop_append_of_le_length hlt.le]
      by_cases hwhole : nSendOffset + n = data.length
      · rw [if_pos hwhole]
        have hne' : ∀ data ∈ vSendMsg, data ≠ [] := fun d hd => hne d (List.mem_cons_of_mem _ hd)
        have hsize' : nSendSize - data.length = (vSendMsg.map List.length).sum := by
          rw [hsize, List.map_cons, List.sum_cons, Nat.add_sub_cancel_left]
        obtain ⟨r, hr, htaken, hrest⟩ := ih outcomes hne' hsize' (offsetOk_zero hne')
        rw [hr]
        refine ⟨_, rfl, ?_, hrest⟩
        rw [List.append_assoc, htaken, List.drop_zero,
          List.take_of_length_le (by rw [List.length_drop]; omega)]
      · rw [if_neg hwhole]
        refine ⟨_, rfl, ?_, hne, hsize, ?_⟩
        · have hle : nSendOffset + n ≤ data.length := by omega
          rw [List.flatten_cons, List.drop_append_of_le_length hle, ← List.append_assoc,
            ← List.drop_drop, List.take_append_drop]
        · show nSendOffset + n < data.length
          omega

theorem socketSendData_spec {node : CNode} (h : Queued node) (outcomes : List Nat) :
    ∃ taken node', node.socketSendData outcomes = some (taken, node') ∧ Queued node' ∧
      taken ++ node'.unsent = node.unsent := by
  obtain ⟨r, hr, htaken, hne, hsize, hoffset⟩ := sendFrom_spec outcomes h.ne_nil h.size
    h.offset
  refine ⟨r.taken, { node with
    vSendMsg := r.vSendMsg, nSendOffset := r.nSendOffset, nSendSize := r.nSendSize }, ?_,
    ⟨h.ssSend, hne, hsize, hoffset⟩, htaken⟩
  rw [CNode.socketSendData, hr]
  rfl

theorem pushMessage_spec (params : NetParams) {node : CNode} (h : Queued node) (message : NetMessage)
    (outcomes : List Nat) :
    ∃ taken node', node.pushMessage params message.command message.payload outcomes =
        some (taken, node') ∧ Queued node' ∧
      taken ++ node'.unsent = node.unsent ++ message.bytes params := by
  have hlen := length_bytes params message
  have hnew : ((CMessageHeader.new params message.command 0).write ++ message.payload).length =
      24 + message.payload.length := by
    rw [CMessageHeader.write, CMessageHeader.new]
    simp only [List.length_append, length_leBytes, length_strncpy, params.length_messageStart]
    rfl
  -- the queue with the message at its end
  obtain ⟨sending, hsending⟩ : ∃ sending : CNode, sending = { node with
      ssSend := [], vSendMsg := node.vSendMsg ++ [message.bytes params],
      nSendSize := node.nSendSize + (message.bytes params).length } := ⟨_, rfl⟩
  have hpush : node.pushMessage params message.command message.payload outcomes =
      if node.vSendMsg = [] then sending.socketSendData outcomes else some ([], sending) := by
    rw [CNode.pushMessage, CNode.beginMessage, if_pos (by rw [h.ssSend]; rfl), Option.bind_some,
      CNode.endMessage]
    simp only [finishMessage_eq]
    rw [if_neg (by omega), if_pos (by rw [hnew]; exact Nat.le_add_right ..), hsending]
  have hoffset : OffsetOk sending.vSendMsg sending.nSendOffset ∧
      sending.unsent = node.unsent ++ message.bytes params := by
    rw [hsending]
    have hnode := h.offset
    simp only [CNode.unsent]
    cases hv : node.vSendMsg with
    | nil =>
      rw [hv] at hnode
      have h0 : node.nSendOffset = 0 := hnode
      rw [h0]
      exact ⟨by show 0 < _; omega, by simp⟩
    | cons data vSendMsg =>
      rw [hv] at hnode
      have hlt : node.nSendOffset < data.length := hnode
      refine ⟨hlt, ?_⟩
      rw [List.flatten_append, List.drop_append_of_le_length, List.flatten_singleton]
      rw [List.flatten_cons, List.length_append]
      omega
  have hqueued : Queued sending := by
    refine ⟨by rw [hsending], ?_, ?_, hoffset.1⟩
    · rw [hsending]
      intro data hdata
      rcases List.mem_append.mp hdata with hdata | hdata
      · exact h.ne_nil data hdata
      · rw [List.mem_singleton.mp hdata, ← List.length_pos_iff]
        omega
    · rw [hsending]
      simp [h.size]
  rw [hpush, ← hoffset.2]
  split_ifs with hempty
  · exact socketSendData_spec hqueued outcomes
  · exact ⟨[], sending, rfl, hqueued, rfl⟩

/-! ## The connection -/

/-- What a connection maintains: the queue continues what was handed to the socket, and what the
receiver has is what the bytes delivered split into. -/
structure Delivering (params : NetParams) (s : Connection) : Prop where
  queued : Queued s.sender
  sent : s.taken ++ s.sender.unsent = s.pushed.flatMap (NetMessage.bytes params)
  size : ∀ message ∈ s.pushed, message.payload.length ≤ MAX_PROTOCOL_MESSAGE_LENGTH
  delivered : ∃ got frames left, s.taken = got ++ s.wire ∧ messages.Splits got frames (some left) ∧
    Received frames left s.receiver.vRecvMsg
  connected : s.receiver.fDisconnect = false

section

variable {params : NetParams} {c c' : Connection}

theorem delivering_init (params : NetParams) : Delivering params .init where
  queued := ⟨rfl, fun _ hdata => absurd hdata List.not_mem_nil, rfl, rfl⟩
  sent := rfl
  size := fun _ hmessage => absurd hmessage List.not_mem_nil
  delivered := ⟨[], [], [], rfl, .more rfl,
    .whole (fun _ hmsg => absurd hmsg List.not_mem_nil) rfl rfl⟩
  connected := rfl

/-- What the stream of all pushed messages splits into. -/
theorem Delivering.splits (h : Delivering params c) :
    messages.Splits (c.taken ++ c.sender.unsent)
      (c.pushed.map fun message => (message.header params, message.payload)) (some []) := by
  rw [h.sent]
  exact splits_bytes params h.size

/-- The sender hands bytes to the socket, the queue being extended by `more`. -/
theorem Delivering.send (h : Delivering params c) {taken more : Bytes} {node : CNode}
    {pushed : List NetMessage} (hnode : Queued node) (htaken : taken ++ node.unsent = c.sender.unsent ++ more)
    (hmore : more = pushed.flatMap (NetMessage.bytes params))
    (hsize : ∀ message ∈ pushed, message.payload.length ≤ MAX_PROTOCOL_MESSAGE_LENGTH) :
    Delivering params { c.send (taken, node) with pushed := c.pushed ++ pushed } where
  queued := hnode
  sent := by
    show (c.taken ++ taken) ++ node.unsent = _
    rw [List.append_assoc, htaken, ← List.append_assoc, h.sent, List.flatMap_append, hmore]
  size := fun message hmessage => (List.mem_append.mp hmessage).elim (h.size message) (hsize message)
  delivered := by
    obtain ⟨got, frames, left, hgot, hsplits, hreceived⟩ := h.delivered
    refine ⟨got, frames, left, ?_, hsplits, hreceived⟩
    show c.taken ++ taken = got ++ (c.wire ++ taken)
    rw [hgot, List.append_assoc]
  connected := h.connected

/-- The receiver takes bytes from the wire. They are not rejected, being a part of the stream of all
pushed messages. -/
theorem Delivering.receive (h : Delivering params c) (nBytes : Nat) :
    Delivering params { c with
      receiver := c.receiver.receive params (c.wire.take nBytes), wire := c.wire.drop nBytes } := by
  obtain ⟨got, frames, left, hgot, hsplits, hreceived⟩ := h.delivered
  have hreceives : Receives frames left (c.wire.take nBytes)
      (receiveMsgBytes params c.receiver.vRecvMsg (c.wire.take nBytes)) :=
    receiveFrom_receives params le_rfl hreceived
  have hwire : c.taken = (got ++ c.wire.take nBytes) ++ c.wire.drop nBytes := by
    rw [List.append_assoc, List.take_append_drop, hgot]
  simp only [CNode.receive]
  generalize receiveMsgBytes params c.receiver.vRecvMsg (c.wire.take nBytes) = r at hreceives ⊢
  cases hreceives with
  | ok hsplits' hreceived' =>
    refine ⟨h.queued, h.sent, h.size, ⟨_, _, _, hwire, hsplits.append hsplits', hreceived'⟩, ?_⟩
    simp [h.connected]
  | reject hsplits' =>
    have hall := h.splits
    rw [hwire, List.append_assoc] at hall
    cases (((hsplits.append hsplits').append_none _).unique hall).2

theorem Delivering.step (h : Delivering params c) {op : NetOp}
    (hsize : ∀ message outcomes, op = .pushMessage message outcomes →
      message.payload.length ≤ MAX_PROTOCOL_MESSAGE_LENGTH) :
    ∃ c', c.step params op = some c' ∧ Delivering params c' := by
  cases op with
  | pushMessage message outcomes =>
    obtain ⟨taken, node, hpush, hnode, htaken⟩ := pushMessage_spec params h.queued message outcomes
    refine ⟨_, by rw [Connection.step, hpush]; rfl, ?_⟩
    refine h.send hnode htaken (List.flatMap_singleton ..).symm fun m hm => ?_
    rw [List.mem_singleton.mp hm]
    exact hsize message outcomes rfl
  | socketSendData outcomes =>
    obtain ⟨taken, node, hsend, hnode, htaken⟩ := socketSendData_spec h.queued outcomes
    refine ⟨c.send (taken, node), by rw [Connection.step, hsend]; rfl, ?_⟩
    have hsent := @Delivering.send params c h taken [] node [] hnode
      (by rw [htaken, List.append_nil]) rfl fun m hm => absurd hm List.not_mem_nil
    rwa [List.append_nil] at hsent
  | receiveMsgBytes nBytes => exact ⟨_, rfl, h.receive nBytes⟩

theorem Delivering.run {ops : List NetOp} (h : Delivering params c)
    (hsize : ∀ message outcomes, NetOp.pushMessage message outcomes ∈ ops →
      message.payload.length ≤ MAX_PROTOCOL_MESSAGE_LENGTH) :
    ∃ c', ops.foldlM (Connection.step params) c = some c' ∧ Delivering params c' := by
  induction ops generalizing c with
  | nil => exact ⟨c, rfl, h⟩
  | cons op ops ih =>
    obtain ⟨c₁, hstep, h₁⟩ := h.step fun message outcomes hop =>
      hsize message outcomes (hop ▸ List.mem_cons_self ..)
    obtain ⟨c₂, hrun, h₂⟩ := ih h₁ fun message outcomes hop =>
      hsize message outcomes (List.mem_cons_of_mem _ hop)
    exact ⟨c₂, by rw [List.foldlM_cons, hstep]; exact hrun, h₂⟩

/-- The message that an operation pushes. -/
def NetOp.message : NetOp → Option NetMessage
  | .pushMessage message _ => some message
  | .socketSendData _ => none
  | .receiveMsgBytes _ => none

theorem step_pushed {op : NetOp} (h : c.step params op = some c') :
    c'.pushed = c.pushed ++ op.message.toList := by
  cases op with
  | pushMessage message outcomes =>
    obtain ⟨r, -, rfl⟩ := Option.map_eq_some_iff.mp h
    rfl
  | socketSendData outcomes =>
    obtain ⟨r, -, rfl⟩ := Option.map_eq_some_iff.mp h
    exact (List.append_nil _).symm
  | receiveMsgBytes nBytes =>
    cases h
    exact (List.append_nil _).symm

theorem run_pushed {ops : List NetOp} (h : ops.foldlM (Connection.step params) c = some c') :
    c'.pushed = c.pushed ++ ops.filterMap NetOp.message := by
  induction ops generalizing c with
  | nil =>
    cases h
    exact (List.append_nil _).symm
  | cons op ops ih =>
    rw [List.foldlM_cons] at h
    obtain ⟨c₁, hstep, hrun⟩ := Option.bind_eq_some_iff.mp h
    rw [ih hrun, step_pushed hstep, List.append_assoc]
    cases hmessage : op.message with
    | none => rw [List.filterMap_cons_none hmessage]; rfl
    | some message => rw [List.filterMap_cons_some hmessage]; rfl

/-- A message as a command and a payload. -/
def NetMessage.content (message : NetMessage) : Bytes × Bytes :=
  (message.command.psz, message.payload)

/-- The commands and payloads of the complete messages of the receiver. -/
def Connection.received (s : Connection) : List (Bytes × Bytes) :=
  (completed s.receiver.vRecvMsg).map fun frame => (frame.1.getCommand, frame.2)

theorem content_header (params : NetParams) (message : NetMessage) :
    ((message.header params).getCommand, message.payload) = message.content := by
  rw [CMessageHeader.getCommand, NetMessage.header, takeWhile_strncpy]
  rfl

/-- The messages received are the beginning of the messages pushed of which all bytes were
delivered. -/
theorem Delivering.received (h : Delivering params c) :
    ∃ got, c.taken = got ++ c.wire ∧ c.received <+: c.pushed.map NetMessage.content ∧
      ∀ sent, sent <+: c.pushed →
        (sent.flatMap (NetMessage.bytes params) <+: got ↔
          sent.map NetMessage.content <+: c.received) := by
  obtain ⟨got, frames, left, hgot, hsplits, hreceived⟩ := h.delivered
  obtain ⟨frame, hframe⟩ : ∃ frame : NetMessage → CMessageHeader × Bytes,
      frame = fun message => (message.header params, message.payload) := ⟨_, rfl⟩
  have hcontent : ∀ sent : List NetMessage,
      (sent.map frame).map (fun frame => (frame.1.getCommand, frame.2)) =
        sent.map NetMessage.content := fun sent => by
    rw [List.map_map, hframe]
    exact List.map_congr_left fun message _ => content_header params message
  have hframes : frames <+: c.pushed.map frame := by
    have hall := h.splits
    rw [hgot, List.append_assoc, ← hframe] at hall
    obtain ⟨frames₁, frames₂, left', hs, heq, -⟩ := hall.of_prefix
    obtain ⟨rfl, -⟩ := hsplits.unique hs
    exact ⟨frames₂, heq.symm⟩
  have hrec : c.received = frames.map fun frame => (frame.1.getCommand, frame.2) := by
    rw [Connection.received, hreceived.completed]
  refine ⟨got, hgot, ?_, fun sent hsent => ?_⟩
  · rw [hrec, ← hcontent]
    exact hframes.map _
  have hsplitsSent : messages.Splits (sent.flatMap (NetMessage.bytes params)) (sent.map frame)
      (some []) := by
    rw [hframe]
    exact splits_bytes params fun message hm => h.size message (hsent.subset hm)
  constructor
  · rintro ⟨t, rfl⟩
    obtain ⟨frames', rest, ht⟩ := Framing.exists_splits messages t
    obtain ⟨rfl, -⟩ := hsplits.unique (hsplitsSent.append ht)
    rw [hrec, List.map_append, hcontent]
    exact List.prefix_append _ _
  · intro hprefix
    have hlen : sent.length ≤ frames.length := by
      have := hprefix.length_le
      rwa [hrec, List.length_map, List.length_map] at this
    have hsentFrames : sent.map frame <+: frames :=
      List.prefix_of_prefix_length_le (hsent.map _) hframes (by rwa [List.length_map])
    -- what was delivered and what was sent are beginnings of one stream
    have hgotAll : got <+: c.pushed.flatMap (NetMessage.bytes params) := by
      rw [← h.sent, hgot, List.append_assoc]
      exact List.prefix_append _ _
    have hsentAll : sent.flatMap (NetMessage.bytes params) <+:
        c.pushed.flatMap (NetMessage.bytes params) := by
      obtain ⟨more, hmore⟩ := hsent
      rw [← hmore, List.flatMap_append]
      exact List.prefix_append _ _
    rcases Nat.le_total (sent.flatMap (NetMessage.bytes params)).length got.length with hle | hle
    · exact List.prefix_of_prefix_length_le hsentAll hgotAll hle
    · obtain ⟨t, ht⟩ := List.prefix_of_prefix_length_le hgotAll hsentAll hle
      rw [← ht] at hsplitsSent
      obtain ⟨frames₁, frames₂, left', hs, heq, hrest⟩ := hsplitsSent.of_prefix
      obtain ⟨rfl, -⟩ := hsplits.unique hs
      have hnil : frames₂ = [] := by
        have := hsentFrames.length_le
        rw [heq, List.length_append] at this
        exact List.eq_nil_of_length_eq_zero (by omega)
      rw [hnil] at hrest
      have hempty : left' ++ t = [] := by
        generalize left' ++ t = u at hrest
        cases hrest
        rfl
      rw [(List.append_eq_nil_iff.mp hempty).2, List.append_nil] at ht
      rw [ht]

end

/-- Over every run of a connection no call fails, what was handed to the socket is a beginning of the
messages pushed, and the messages received are those of them whose bytes were delivered; and what is
received of a stream does not depend on how it is cut. -/
theorem net_lossless (params : NetParams) :
    (∀ ops : List NetOp,
      (∀ message outcomes, NetOp.pushMessage message outcomes ∈ ops →
        message.payload.length ≤ MAX_PROTOCOL_MESSAGE_LENGTH) →
      ∃ s, Connection.run params ops = some s ∧ s.receiver.fDisconnect = false ∧
        s.pushed = ops.filterMap NetOp.message ∧
        s.taken <+: s.pushed.flatMap (NetMessage.bytes params) ∧
        s.sender.nSendSize = (s.sender.vSendMsg.map List.length).sum ∧
        (∀ data ∈ s.sender.vSendMsg.head?, s.sender.nSendOffset < data.length) ∧
        (s.sender.vSendMsg = [] → s.wire = [] → s.received = s.pushed.map NetMessage.content) ∧
        ∃ got, s.taken = got ++ s.wire ∧ s.received <+: s.pushed.map NetMessage.content ∧
          ∀ sent, sent <+: s.pushed →
            (sent.flatMap (NetMessage.bytes params) <+: got ↔
              sent.map NetMessage.content <+: s.received)) ∧
    ∀ chunks chunks' : List Bytes, chunks.flatten = chunks'.flatten →
      (receiveChunks params [] chunks).1 = (receiveChunks params [] chunks').1 ∧
        completed (receiveChunks params [] chunks).2 =
          completed (receiveChunks params [] chunks').2 := by
  refine ⟨fun ops hsize => ?_, fun chunks chunks' hflatten => ?_⟩
  · obtain ⟨s, hrun, h⟩ := (delivering_init params).run hsize
    obtain ⟨got, hgot, hprefix, hiff⟩ := h.received
    refine ⟨s, hrun, h.connected, run_pushed hrun, ?_, h.queued.size, ?_, fun hqueue hwire => ?_,
      got, hgot, hprefix, hiff⟩
    · rw [← h.sent]
      exact List.prefix_append _ _
    · have hoffset := h.queued.offset
      intro data hdata
      cases hv : s.sender.vSendMsg with
      | nil => rw [hv] at hdata; cases hdata
      | cons first rest =>
        rw [hv] at hdata hoffset
        cases hdata
        exact hoffset
    · have hall : s.pushed.flatMap (NetMessage.bytes params) <+: got := by
        rw [← h.sent, CNode.unsent, hqueue, hgot, hwire]
        simp
      exact hprefix.eq_of_length_le ((hiff _ List.prefix_rfl).mp hall).length_le
  · have hnil : Received [] [] [] := .whole (fun msg hmsg => absurd hmsg List.not_mem_nil) rfl rfl
    have h := receiveChunks_receives params chunks hnil
    have h' := receiveChunks_receives params chunks' hnil
    rw [← hflatten] at h'
    exact h.unique h'

/-- Parameters with the start of the main network, and a checksum of zero. -/
def zeroHashParams : NetParams := ⟨fun _ => 0, [0xfb, 0xc0, 0xb6, 0xdb], rfl⟩

/-- `verack` with no payload and `ping` with one: parts of both are in one send, and the header of
the second is cut in two. -/
def pingOps : List NetOp :=
  [.pushMessage ⟨⟨[118, 101, 114, 97, 99, 107], by decide, by simp⟩, []⟩ [10],
    .pushMessage ⟨⟨[112, 105, 110, 103], by decide, by simp⟩, [7, 0, 7]⟩ [], .receiveMsgBytes 4,
    .socketSendData [14, 9], .receiveMsgBytes 25, .socketSendData [0], .socketSendData [18],
    .receiveMsgBytes 23]

theorem pingOps_lossless : ∃ s, Connection.run zeroHashParams pingOps = some s ∧
    s.received = [([118, 101, 114, 97, 99, 107], []), ([112, 105, 110, 103], [7, 0, 7])] := by
  obtain ⟨s, hrun, -, hpushed, -, -, -, hall, -⟩ := (net_lossless zeroHashParams).1 pingOps
    fun message outcomes hop => by
      simp only [pingOps, List.mem_cons, NetOp.pushMessage.injEq, List.not_mem_nil, reduceCtorEq,
        or_false] at hop
      obtain ⟨rfl, -⟩ | ⟨rfl, -⟩ := hop <;> decide
  have hend : (Connection.run zeroHashParams pingOps).map (fun s => (s.sender.vSendMsg, s.wire)) =
      some ([], []) := by decide +kernel
  rw [hrun] at hend
  obtain ⟨hqueue, hwire⟩ := Prod.mk.inj (Option.some.inj hend)
  exact ⟨s, hrun, by rw [hall hqueue hwire, hpushed]; rfl⟩

end GC
