import MiniDarwin.Launchd.Plist

/-!
Frames and descriptors on the socket of `open` (`channel.cpp`).

What a socket holds is a list of bytes. The descriptors that `sendmsg ()`
is given are attached to the first byte that it sends, and `recvmsg ()`
delivers them with that byte: it ends before a later byte that has
descriptors of its own. How many bytes a call moves, and which calls fail
with `EAGAIN` or `EINTR`, is up to the `Answer`s of the kernel. A run for
which there are no more answers is `waiting`; nothing times out.
-/

namespace MiniDarwin.Open

open Posix (Bytes)
open Launchd (Value Doc ascii frame frameSize framed maxMessage parsePlist writePlist)

def maxDescriptors : Nat := 6

/-- The bytes in a socket, with the open files that are attached to them. -/
abbrev Stream := List (UInt8 × List Nat)

inductive Answer where
  /-- `EINTR`, `EAGAIN`, `EWOULDBLOCK` -/
  | again
  /-- one byte and as many as `more` further ones -/
  | moved (more : Nat)

inductive Outcome (α : Type) where
  | waiting
  /-- an exception -/
  | raised (message : Bytes)
  | returned (a : α)

variable {α β : Type}

def Outcome.bind (x : Outcome α) (f : α → Outcome β) : Outcome β :=
  match x with
  | .waiting => .waiting
  | .raised message => .raised message
  | .returned a => f a

instance : Monad Outcome where
  pure := .returned
  bind := Outcome.bind

/-! ### Sending -/

/-- `sendmsg ()`: what it adds to the socket. -/
def sendmsg (control : List Nat) : Bytes → Stream
  | [] => []
  | c :: chunk => (c, control) :: chunk.map fun c => (c, [])

/-- The loop of `sendFrame ()`. -/
def sendFrom (bytes : Bytes) (descriptors : List Nat) (answers : List Answer) (offset : Nat) (sent : Stream) :
    Outcome Stream :=
  if offset < bytes.length then
    match answers with
    | [] => .waiting
    | .again :: answers => sendFrom bytes descriptors answers offset sent
    | .moved more :: answers =>
        let chunk := (bytes.drop offset).take (more + 1)
        let control := if offset = 0 then descriptors else []
        sendFrom bytes descriptors answers (offset + chunk.length) (sent ++ sendmsg control chunk)
  else .returned sent

def sendFrame (value : Value) (descriptors : List Nat) (answers : List Answer) : Outcome Stream :=
  if descriptors.length > maxDescriptors then .raised (ascii "too many descriptors")
  else
    match frame value with
    | .error message => .raised message
    | .ok bytes => sendFrom bytes descriptors answers 0 []

/-! ### Receiving -/

/-- `recvmsg ()`: the bytes, the descriptors, and what stays in the socket. -/
def recvmsg (size more : Nat) : Stream → Bytes × List Nat × Stream
  | [] => ([], [], [])
  | (c, control) :: stream =>
      let rest := (stream.take (min more (size - 1))).takeWhile (·.2 = [])
      (c :: rest.map (·.1), control, stream.drop rest.length)

structure Progress where
  /-- what `receiveExactly ()` returns -/
  whole : Bool
  buffer : Bytes
  /-- the vector for descriptors, if there is one -/
  descriptors : Option (List Nat)
  stream : Stream

/-- What is said of the descriptors of one `recvmsg ()`. -/
def judge (first : Bool) (offset : Nat) (descriptors : Option (List Nat)) (received : List Nat) :
    Outcome (Option (List Nat)) :=
  if received.length > maxDescriptors then .raised (ascii "too many descriptors")
  else if received ≠ [] ∧ (descriptors = none ∨ first = false ∨ offset ≠ 0) then
    .raised (ascii "unexpected descriptors")
  else .returned (descriptors.map (· ++ received))

/-- Nothing more will come. -/
def ended (first : Bool) (p : Progress) : Outcome Progress :=
  if p.buffer = [] ∧ first then .returned { p with whole := false }
  else .raised (ascii "the open service closed the connection")

/-- The loop of `receiveExactly ()`: `offset` is the length of what is in the buffer. A socket
that is `closed` ends where its bytes end; another one has no more bytes yet. -/
def receiveExactly (closed : Bool) (size : Nat) (first : Bool) (answers : List Answer) (p : Progress) :
    Outcome (Progress × List Answer) :=
  if p.buffer.length < size then
    match answers with
    | [] => .waiting
    | .again :: answers => receiveExactly closed size first answers p
    | .moved more :: answers =>
        let (chunk, received, stream) := recvmsg (size - p.buffer.length) more p.stream
        if chunk = [] ∧ closed = false then receiveExactly closed size first answers p
        else do
          let descriptors ← judge first p.buffer.length p.descriptors received
          if chunk = [] then return (← ended first p, answers)
          else receiveExactly closed size first answers ⟨true, p.buffer ++ chunk, descriptors, stream⟩
  else .returned (p, answers)

/-- The value with the descriptors that came with it, and what is left in the socket. -/
structure Received where
  value : Option Value
  descriptors : Option (List Nat)
  stream : Stream

def receiveFrame (xmlReadMemory : Bytes → Option Doc) (closed : Bool) (descriptors : Option (List Nat))
    (stream : Stream) (answers : List Answer) : Outcome Received := do
  let (header, answers) ← receiveExactly closed 4 true answers ⟨true, [], descriptors, stream⟩
  if header.whole = false then return ⟨none, header.descriptors, header.stream⟩
  else
    let size := frameSize header.buffer
    if size = 0 ∨ size > maxMessage then .raised (ascii "invalid frame length")
    else do
      let (body, _) ← receiveExactly closed size false answers ⟨true, [], none, header.stream⟩
      match parsePlist xmlReadMemory body.buffer false with
      | .error message => .raised (ascii "invalid message: " ++ message)
      | .ok value => return ⟨some value, header.descriptors, body.stream⟩

/-! ### One byte after the other -/

/-- `receiveExactly ()`, when every call moves one byte. -/
def exactly (closed first : Bool) : (size : Nat) → Progress → Outcome Progress
  | 0, p => .returned p
  | size + 1, p =>
      match p.stream with
      | [] => if closed then ended first p else .waiting
      | (c, received) :: stream => do
          let descriptors ← judge first p.buffer.length p.descriptors received
          exactly closed first size ⟨true, p.buffer ++ [c], descriptors, stream⟩

/-- `receiveFrame ()`, when every call moves one byte. -/
def wholeFrame (xmlReadMemory : Bytes → Option Doc) (closed : Bool) (descriptors : Option (List Nat))
    (stream : Stream) : Outcome Received := do
  let header ← exactly closed true 4 ⟨true, [], descriptors, stream⟩
  if header.whole = false then return ⟨none, header.descriptors, header.stream⟩
  else
    let size := frameSize header.buffer
    if size = 0 ∨ size > maxMessage then .raised (ascii "invalid frame length")
    else do
      let body ← exactly closed false size ⟨true, [], none, header.stream⟩
      match parsePlist xmlReadMemory body.buffer false with
      | .error message => .raised (ascii "invalid message: " ++ message)
      | .ok value => return ⟨some value, header.descriptors, body.stream⟩

/-- The answers that move bytes. -/
def moves : List Answer → Nat
  | [] => 0
  | .again :: answers => moves answers
  | .moved _ :: answers => moves answers + 1

/-- The function raises an exception. -/
def Raises (x : Outcome α) : Prop := ∃ message, x = .raised message

/-- What a run comes to, unless it is waiting for lack of answers. -/
def Settled (answers : List Answer) (x want : Outcome α) : Prop :=
  x = want ∨ x = .waiting ∧ moves answers < 4 + maxMessage

variable {closed first : Bool} {size offset more : Nat} {answers : List Answer} {p : Progress}
variable {descriptors : Option (List Nat)} {received : List Nat} {buffer : Bytes} {stream rest : Stream}

theorem raises_bind {x : Outcome α} {f : α → Outcome β} (h : Raises x) : Raises (x >>= f) := by
  obtain ⟨message, rfl⟩ := h
  exact ⟨message, rfl⟩

theorem judge_nil : judge first offset descriptors [] = .returned descriptors := by
  rw [judge, if_neg (by decide), if_neg (by simp)]
  cases descriptors with
  | none => rfl
  | some held => simp

/-- Bytes without descriptors are only counted. -/
theorem exactly_plain {plain : Stream} (h : ∀ x ∈ plain, x.2 = []) :
    exactly closed first (plain.length + size) ⟨true, buffer, descriptors, plain ++ rest⟩ =
      exactly closed first size ⟨true, buffer ++ plain.map (·.1), descriptors, rest⟩ := by
  induction plain generalizing buffer with
  | nil => simp
  | cons x plain ih =>
      obtain ⟨hx, hplain⟩ := List.forall_mem_cons.1 h
      have hlength : (x :: plain).length + size = plain.length + size + 1 := by simp; omega
      rw [hlength, List.cons_append, exactly]
      simp only [hx, judge_nil, bind, Outcome.bind]
      rw [ih hplain]
      simp

/-- One `recvmsg ()` is as many rounds as it delivers bytes. -/
theorem exactly_recvmsg (closed first : Bool) (more : Nat) {x : UInt8 × List Nat} (hsize : 0 < size)
    (hstream : p.stream = x :: stream) :
    ∃ chunk rest, recvmsg size more p.stream = (chunk, x.2, rest) ∧ chunk ≠ [] ∧ chunk.length ≤ size ∧
      exactly closed first size p = (judge first p.buffer.length p.descriptors x.2 >>= fun descriptors =>
        exactly closed first (size - chunk.length) ⟨true, p.buffer ++ chunk, descriptors, rest⟩) := by
  obtain ⟨plain, hdef⟩ : ∃ plain, (stream.take (min more (size - 1))).takeWhile (·.2 = []) = plain := ⟨_, rfl⟩
  have hinit : plain <+: stream.take (min more (size - 1)) := hdef ▸ List.takeWhile_prefix _
  have hlength : plain.length + 1 ≤ size := by
    have := hinit.length_le
    rw [List.length_take] at this
    omega
  have hplain : ∀ y ∈ plain, y.2 = [] := by
    intro y hy
    rw [← hdef] at hy
    simpa using List.mem_takeWhile_imp hy
  have hsplit : stream = plain ++ stream.drop plain.length :=
    (List.prefix_iff_eq_append.1 (hinit.trans (List.take_prefix _ _))).symm
  refine ⟨x.1 :: plain.map (·.1), stream.drop plain.length, ?_, List.cons_ne_nil _ _, ?_, ?_⟩
  · rw [hstream, recvmsg, hdef]
  · simpa using hlength
  · obtain ⟨n, rfl⟩ : ∃ n, size = plain.length + n + 1 := ⟨size - plain.length - 1, by omega⟩
    rw [exactly]
    simp only [hstream]
    congr 1
    ext descriptors
    have hleft : plain.length + n + 1 - (x.1 :: plain.map (·.1)).length = n := by
      rw [List.length_cons, List.length_map]
      omega
    rw [hleft, hsplit, exactly_plain hplain]
    simp

theorem receiveExactly_done (h : size ≤ p.buffer.length) :
    receiveExactly closed size first answers p = .returned (p, answers) := by
  rw [receiveExactly.eq_def, if_neg (not_lt.2 h)]

theorem receiveExactly_nothing (h : p.buffer.length < size) (hstream : p.stream = []) :
    receiveExactly closed size first (.moved more :: answers) p =
      if closed then ended first p >>= fun q => .returned (q, answers)
      else receiveExactly closed size first answers p := by
  rw [receiveExactly.eq_def, if_pos h]
  simp only [hstream, recvmsg, judge_nil]
  cases closed with
  | false => rfl
  | true => rfl

theorem receiveExactly_moved {chunk : Bytes} (h : p.buffer.length < size)
    (hrecv : recvmsg (size - p.buffer.length) more p.stream = (chunk, received, rest)) (hchunk : chunk ≠ []) :
    receiveExactly closed size first (.moved more :: answers) p =
      (judge first p.buffer.length p.descriptors received >>= fun descriptors =>
        receiveExactly closed size first answers ⟨true, p.buffer ++ chunk, descriptors, rest⟩) := by
  rw [receiveExactly.eq_def, if_pos h]
  simp only [hrecv, hchunk, false_and, if_false]

/-- **How the bytes are split does not matter.** -/
theorem receiveExactly_split (closed first : Bool) (size : Nat) (answers : List Answer) (p : Progress) :
    (receiveExactly closed size first answers p = .waiting ∧
      (exactly closed first (size - p.buffer.length) p = .waiting ∨ moves answers < size - p.buffer.length)) ∨
    ∃ left, moves answers ≤ moves left + (size - p.buffer.length) ∧
      receiveExactly closed size first answers p =
        (exactly closed first (size - p.buffer.length) p >>= fun q => .returned (q, left)) := by
  induction answers generalizing p with
  | nil =>
      by_cases hroom : p.buffer.length < size
      · refine .inl ⟨?_, .inr (by rw [moves]; omega)⟩
        rw [receiveExactly.eq_def, if_pos hroom]
      · refine .inr ⟨[], Nat.zero_le _, ?_⟩
        rw [receiveExactly_done (not_lt.1 hroom), Nat.sub_eq_zero_of_le (not_lt.1 hroom)]
        rfl
  | cons answer answers ih =>
      by_cases hroom : p.buffer.length < size
      · cases answer with
        | again =>
            have hagain : receiveExactly closed size first (.again :: answers) p =
                receiveExactly closed size first answers p := by
              conv_lhs => rw [receiveExactly.eq_def, if_pos hroom]
            rw [hagain]
            exact ih p
        | moved more =>
            cases hstream : p.stream with
            | nil =>
                obtain ⟨n, hn⟩ : ∃ n, size - p.buffer.length = n + 1 := ⟨size - p.buffer.length - 1, by omega⟩
                have hexactly : exactly closed first (size - p.buffer.length) p =
                    if closed = true then ended first p else .waiting := by
                  rw [hn, exactly, hstream]
                rw [receiveExactly_nothing hroom hstream]
                cases closed with
                | false =>
                    have hwaiting : exactly false first (size - p.buffer.length) p = .waiting := hexactly
                    obtain h | ⟨left, -, h⟩ := ih p
                    · exact .inl ⟨h.1, .inl hwaiting⟩
                    · rw [hwaiting] at h
                      exact .inl ⟨h, .inl hwaiting⟩
                | true =>
                    refine .inr ⟨answers, by rw [moves]; omega, ?_⟩
                    rw [hexactly]
                    rfl
            | cons x stream =>
                obtain ⟨chunk, rest, hrecv, hchunk, hlength, hexactly⟩ :=
                  exactly_recvmsg closed first more (show 0 < size - p.buffer.length by omega) hstream
                rw [receiveExactly_moved hroom hrecv hchunk, hexactly]
                have hpos : 0 < chunk.length := List.length_pos_iff.2 hchunk
                cases judge first p.buffer.length p.descriptors x.2 with
                | waiting => exact .inl ⟨rfl, .inl rfl⟩
                | raised message => exact .inr ⟨answers, by rw [moves]; omega, rfl⟩
                | returned descriptors =>
                    have h := ih ⟨true, p.buffer ++ chunk, descriptors, rest⟩
                    simp only [List.length_append, ← Nat.sub_sub] at h
                    refine h.imp (And.imp_right (Or.imp_right ?_)) (Exists.imp fun left => And.imp_left ?_)
                    · intro hlt
                      rw [moves]
                      omega
                    · intro hle
                      rw [moves]
                      omega
      · refine .inr ⟨answer :: answers, Nat.le_add_right _ _, ?_⟩
        rw [receiveExactly_done (not_lt.1 hroom), Nat.sub_eq_zero_of_le (not_lt.1 hroom)]
        rfl

/-- A frame is read as if its bytes came one after the other. -/
theorem receiveFrame_split {xmlReadMemory : Bytes → Option Doc} (answers : List Answer)
    (hwhole : wholeFrame xmlReadMemory closed descriptors stream ≠ .waiting) :
    Settled answers (receiveFrame xmlReadMemory closed descriptors stream answers)
      (wholeFrame xmlReadMemory closed descriptors stream) := by
  have hheader := receiveExactly_split closed true 4 answers ⟨true, [], descriptors, stream⟩
  rw [List.length_nil, Nat.sub_zero] at hheader
  obtain ⟨hwait, hmoves⟩ | ⟨left, hleft, hread⟩ := hheader
  · have hexactly : exactly closed true 4 ⟨true, [], descriptors, stream⟩ ≠ .waiting := by
      intro h
      rw [wholeFrame, h] at hwhole
      exact hwhole rfl
    have := hmoves.resolve_left hexactly
    exact .inr ⟨by rw [receiveFrame, hwait]; rfl, by omega⟩
  · rw [receiveFrame, hread]
    rw [wholeFrame] at hwhole ⊢
    cases hexactly : exactly closed true 4 ⟨true, [], descriptors, stream⟩ with
    | waiting =>
        rw [hexactly] at hwhole
        exact absurd rfl hwhole
    | raised message => exact .inl rfl
    | returned header =>
        rw [hexactly] at hwhole
        simp only [bind, Outcome.bind] at hwhole ⊢
        split
        · exact .inl rfl
        · next hfull =>
            rw [if_neg hfull] at hwhole
            split
            · exact .inl rfl
            · next hsize =>
                rw [if_neg hsize] at hwhole
                have hbody := receiveExactly_split closed false (frameSize header.buffer) left
                  ⟨true, [], none, header.stream⟩
                rw [List.length_nil, Nat.sub_zero] at hbody
                obtain ⟨hwait, hmoves⟩ | ⟨left', -, hread'⟩ := hbody
                · refine .inr ⟨by rw [hwait], ?_⟩
                  obtain hstuck | hmoves := hmoves
                  · rw [hstuck] at hwhole
                    exact absurd rfl hwhole
                  · omega
                · left
                  rw [hread']
                  cases exactly closed false (frameSize header.buffer) ⟨true, [], none, header.stream⟩ with
                  | waiting => rfl
                  | raised message => rfl
                  | returned body => rfl

/-! ### What arrives -/

theorem judge_cases (first : Bool) (offset : Nat) (descriptors : Option (List Nat)) (received : List Nat) :
    Raises (judge first offset descriptors received) ∨
      judge first offset descriptors received = .returned (descriptors.map (· ++ received)) ∧
        ¬ (received ≠ [] ∧ (descriptors = none ∨ first = false ∨ offset ≠ 0)) := by
  rw [judge]
  split
  · exact .inl ⟨_, rfl⟩
  · split
    · exact .inl ⟨_, rfl⟩
    · next h => exact .inr ⟨rfl, h⟩

/-- A descriptor where none is expected. -/
theorem exactly_unexpected {before : Stream} {c : UInt8} (hbefore : before.length < size) (hsome : received ≠ [])
    (hbad : descriptors = none ∨ first = false ∨ buffer ++ before.map (·.1) ≠ []) :
    Raises (exactly closed first size ⟨true, buffer, descriptors, before ++ (c, received) :: rest⟩) := by
  induction before generalizing size buffer descriptors with
  | nil =>
      obtain ⟨n, rfl⟩ : ∃ n, size = n + 1 := ⟨size - 1, by rw [List.length_nil] at hbefore; omega⟩
      rw [List.nil_append, exactly]
      apply raises_bind
      obtain hraises | ⟨-, hgood⟩ := judge_cases first buffer.length descriptors received
      · exact hraises
      · refine absurd ⟨hsome, hbad.imp_right (Or.imp_right ?_)⟩ hgood
        simp
  | cons x before ih =>
      obtain ⟨n, rfl⟩ : ∃ n, size = n + 1 := ⟨size - 1, by rw [List.length_cons] at hbefore; omega⟩
      rw [List.length_cons] at hbefore
      rw [List.cons_append, exactly]
      obtain hraises | ⟨hjudge, -⟩ := judge_cases first buffer.length descriptors x.2
      · exact raises_bind hraises
      · simp only [hjudge, bind, Outcome.bind]
        apply ih (by omega)
        refine hbad.imp (fun h => ?_) (Or.imp_right fun _ => ?_)
        · rw [h, Option.map_none]
        · simp

/-- The bytes end too early. -/
theorem exactly_short (hshort : stream.length < size) (hbegun : buffer ≠ [] ∨ stream ≠ [] ∨ first = false) :
    Raises (exactly true first size ⟨true, buffer, descriptors, stream⟩) := by
  obtain ⟨n, rfl⟩ : ∃ n, size = n + 1 := ⟨size - 1, by omega⟩
  induction stream generalizing n buffer descriptors with
  | nil =>
      have hended : ¬ (buffer = [] ∧ first = true) := by
        rintro ⟨hbuffer, hfirst⟩
        obtain h | h | h := hbegun
        · exact h hbuffer
        · exact h rfl
        · rw [h] at hfirst
          cases hfirst
      rw [exactly]
      simp only [if_true, ended, if_neg hended]
      exact ⟨_, rfl⟩
  | cons x stream ih =>
      rw [List.length_cons] at hshort
      rw [exactly]
      obtain hraises | ⟨hjudge, -⟩ := judge_cases first buffer.length descriptors x.2
      · exact raises_bind hraises
      · simp only [hjudge, bind, Outcome.bind]
        obtain ⟨m, rfl⟩ : ∃ m, n = m + 1 := ⟨n - 1, by omega⟩
        exact ih (.inl (by simp)) m (by omega)

/-- Where there are enough bytes, they are read, unless there are descriptors in the way. -/
theorem exactly_enough (closed first : Bool) (buffer : Bytes) (descriptors : Option (List Nat))
    (h : size ≤ stream.length) :
    Raises (exactly closed first size ⟨true, buffer, descriptors, stream⟩) ∨
      ∃ held, exactly closed first size ⟨true, buffer, descriptors, stream⟩ =
        .returned ⟨true, buffer ++ (stream.take size).map (·.1), held, stream.drop size⟩ := by
  induction size generalizing buffer descriptors stream with
  | zero => exact .inr ⟨descriptors, by simp [exactly]⟩
  | succ size ih =>
      cases stream with
      | nil => cases h
      | cons x stream =>
          rw [exactly]
          obtain hraises | ⟨hjudge, -⟩ := judge_cases first buffer.length descriptors x.2
          · exact .inl (raises_bind hraises)
          · simp only [hjudge, bind, Outcome.bind]
            simpa using ih (buffer ++ [x.1]) (descriptors.map (· ++ x.2)) (Nat.le_of_succ_le_succ h)

/-- The rest of a frame whose header is there. -/
theorem wholeFrame_header (xmlReadMemory : Bytes → Option Doc) (h : 4 ≤ stream.length)
    (hbody : Raises (exactly closed false (frameSize (stream.map (·.1))) ⟨true, [], none, stream.drop 4⟩)) :
    Raises (wholeFrame xmlReadMemory closed descriptors stream) := by
  rw [wholeFrame]
  obtain hraises | ⟨held, hheader⟩ := exactly_enough closed true [] descriptors h
  · exact raises_bind hraises
  · have hsize : frameSize ((stream.take 4).map (·.1)) = frameSize (stream.map (·.1)) := by
      rw [frameSize, frameSize, List.map_take, List.take_take, Nat.min_self]
    simp only [hheader, bind, Outcome.bind, List.nil_append, hsize, Bool.true_eq_false, if_false]
    split
    · exact ⟨_, rfl⟩
    · exact raises_bind hbody

/-- Descriptors on a later byte of a frame. -/
theorem wholeFrame_later (xmlReadMemory : Bytes → Option Doc) {before : Stream} {c : UInt8}
    (hsome : received ≠ []) (hlater : before ≠ [])
    (hwithin : before.length < 4 + frameSize ((before ++ (c, received) :: rest).map (·.1))) :
    Raises (wholeFrame xmlReadMemory closed descriptors (before ++ (c, received) :: rest)) := by
  by_cases hheader : before.length < 4
  · exact raises_bind (exactly_unexpected hheader hsome (.inr (.inr (by simpa using hlater))))
  · have hfour : 4 ≤ before.length := not_lt.1 hheader
    apply wholeFrame_header
    · rw [List.length_append]
      omega
    · rw [List.drop_append_of_le_length hfour]
      refine exactly_unexpected ?_ hsome (.inl rfl)
      rw [List.length_drop]
      omega

/-- A frame that ends too early. -/
theorem wholeFrame_short (xmlReadMemory : Bytes → Option Doc) (hsome : stream ≠ [])
    (hshort : stream.length < 4 + frameSize (stream.map (·.1))) :
    Raises (wholeFrame xmlReadMemory true descriptors stream) := by
  by_cases hheader : stream.length < 4
  · exact raises_bind (exactly_short hheader (.inr (.inl hsome)))
  · have hfour : 4 ≤ stream.length := not_lt.1 hheader
    apply wholeFrame_header _ hfour
    apply exactly_short
    · rw [List.length_drop]
      omega
    · exact .inr (.inr rfl)

/-- What `frame ()` returns. -/
theorem frame_framed {value : Value} {bytes : Bytes} (h : frame value = .ok bytes) :
    ∃ payload, bytes = framed payload ∧ payload ≠ [] ∧ payload.length ≤ maxMessage := by
  rw [Launchd.frame_eq] at h
  cases hwrite : writePlist value with
  | error message =>
      rw [hwrite] at h
      cases h
  | ok payload =>
      rw [hwrite] at h
      refine ⟨payload, (Except.ok.inj h).symm, ?_⟩
      rw [writePlist] at hwrite
      cases hencode : Launchd.encode value with
      | error message =>
          rw [hencode] at hwrite
          cases hwrite
      | ok content =>
          rw [hencode] at hwrite
          change Launchd.limited (Launchd.plistHead ++ content ++ ascii "</plist>") = .ok payload at hwrite
          rw [Launchd.limited] at hwrite
          split at hwrite
          · cases hwrite
          · next hsize =>
              rw [← Except.ok.inj hwrite]
              refine ⟨List.append_ne_nil_of_right_ne_nil _ ?_, not_lt.1 hsize⟩
              decide

/-- Two calls add what one would, if the descriptors go with the first. -/
theorem sendmsg_append {control : List Nat} {chunk bytes : Bytes} (h : chunk ≠ []) :
    sendmsg control (chunk ++ bytes) = sendmsg control chunk ++ sendmsg [] bytes := by
  obtain ⟨c, chunk, rfl⟩ := List.exists_cons_of_ne_nil h
  cases bytes with
  | nil => simp [sendmsg]
  | cons d bytes => simp [sendmsg]

/-- **The descriptors are sent once**, with the first byte, however the bytes are split. -/
theorem sendFrom_split {bytes : Bytes} {control : List Nat} {sent : Stream}
    (hsent : sent = sendmsg control (bytes.take offset)) :
    (sendFrom bytes control answers offset sent = .waiting ∧ moves answers < bytes.length - offset) ∨
      sendFrom bytes control answers offset sent = .returned (sendmsg control bytes) := by
  induction answers generalizing offset sent with
  | nil =>
      rw [sendFrom.eq_def]
      split
      · exact .inl ⟨rfl, by rw [moves]; omega⟩
      · next hdone =>
          right
          rw [hsent, List.take_of_length_le (not_lt.1 hdone)]
  | cons answer answers ih =>
      rw [sendFrom.eq_def]
      split
      · next hroom =>
          cases answer with
          | again => exact ih hsent
          | moved more =>
              obtain ⟨chunk, hchunk⟩ : ∃ chunk, (bytes.drop offset).take (more + 1) = chunk := ⟨_, rfl⟩
              have hlength : 0 < chunk.length := by
                rw [← hchunk, List.length_take, List.length_drop]
                omega
              have htake : bytes.take (offset + chunk.length) = bytes.take offset ++ chunk := by
                have hinit : chunk <+: bytes.drop offset := hchunk ▸ List.take_prefix _ _
                rw [List.take_add, ← List.prefix_iff_eq_take.1 hinit]
              have hmore : sent ++ sendmsg (if offset = 0 then control else []) chunk =
                  sendmsg control (bytes.take (offset + chunk.length)) := by
                rw [htake, hsent]
                split
                · next hzero =>
                    rw [hzero, List.take_zero, List.nil_append]
                    rfl
                · next hlater =>
                    rw [sendmsg_append]
                    intro h
                    obtain h | h := List.take_eq_nil_iff.1 h
                    · exact hlater h
                    · rw [h] at hroom
                      cases hroom
              simp only [hchunk]
              refine (ih hmore).imp_left (And.imp_right fun hlt => ?_)
              rw [moves]
              omega
      · next hdone =>
          right
          rw [hsent, List.take_of_length_le (not_lt.1 hdone)]

/-- The four bytes of a length, and the frame behind them. -/
theorem framed_cons (payload : Bytes) :
    ∃ c header, framed payload = c :: (header ++ payload) ∧ (framed payload).take 4 = c :: header ∧
      header.length = 3 := ⟨_, _, rfl, rfl, rfl⟩

/-- The frame, with descriptors on its first byte. -/
theorem wholeFrame_sent {xmlReadMemory : Bytes → Option Doc} {value : Value} {payload : Bytes} {control : List Nat}
    (hcontrol : control.length ≤ maxDescriptors) (hjudge : control = [] ∨ descriptors ≠ none) (hne : payload ≠ [])
    (hsize : payload.length ≤ maxMessage) (hparse : parsePlist xmlReadMemory payload false = .ok value) :
    wholeFrame xmlReadMemory closed descriptors (sendmsg control (framed payload) ++ rest) =
      .returned ⟨some value, descriptors.map (· ++ control), rest⟩ := by
  obtain ⟨c, header, hframed, htake, hlength⟩ := framed_cons payload
  have hplain : ∀ (bytes : Bytes), ∀ x ∈ bytes.map fun c => (c, ([] : List Nat)), x.2 = [] := by
    intro bytes x hx
    obtain ⟨c, -, rfl⟩ := List.mem_map.1 hx
    rfl
  have hstream : sendmsg control (framed payload) ++ rest =
      (c, control) :: (header.map (fun c => (c, [])) ++ (payload.map (fun c => (c, [])) ++ rest)) := by
    rw [hframed, sendmsg, List.map_append, List.cons_append, List.append_assoc]
  have hfirst : judge true ([] : Bytes).length descriptors control = .returned (descriptors.map (· ++ control)) := by
    rw [judge, if_neg (not_lt.2 hcontrol), if_neg]
    rintro ⟨hsome, hnone | hfalse | hzero⟩
    · exact hjudge.elim hsome fun h => h hnone
    · cases hfalse
    · exact hzero rfl
  have hheader : exactly closed true 4 ⟨true, [], descriptors, sendmsg control (framed payload) ++ rest⟩ =
      .returned ⟨true, c :: header, descriptors.map (· ++ control), payload.map (fun c => (c, [])) ++ rest⟩ := by
    have hthree : 3 = (header.map fun c => (c, ([] : List Nat))).length + 0 := by rw [List.length_map, hlength]
    rw [hstream, show 4 = 3 + 1 from rfl, exactly]
    simp only [hfirst, bind, Outcome.bind]
    rw [hthree, exactly_plain (hplain header), exactly]
    simp [Function.comp_def]
  have hbody : exactly closed false payload.length ⟨true, [], none, payload.map (fun c => (c, [])) ++ rest⟩ =
      .returned ⟨true, payload, none, rest⟩ := by
    have hall : payload.length = (payload.map fun c => (c, ([] : List Nat))).length + 0 := by rw [List.length_map]; rfl
    rw [hall, exactly_plain (hplain payload), exactly]
    simp [Function.comp_def]
  have hcount : frameSize (c :: header) = payload.length := by
    have := Launchd.frameSize_framed hsize []
    rwa [htake, List.append_nil] at this
  have hvalid : ¬ (payload.length = 0 ∨ payload.length > maxMessage) := by
    rw [List.length_eq_zero_iff, not_or]
    exact ⟨hne, not_lt.2 hsize⟩
  rw [wholeFrame]
  simp only [hheader, bind, Outcome.bind, Bool.true_eq_false, if_false, hcount, if_neg hvalid, hbody, hparse]
  rfl

/-- Settling in an exception. -/
theorem settled_raises {xmlReadMemory : Bytes → Option Doc} (answers : List Answer)
    (h : Raises (wholeFrame xmlReadMemory closed descriptors stream)) :
    ∃ message, Settled answers (receiveFrame xmlReadMemory closed descriptors stream answers) (.raised message) := by
  obtain ⟨message, hmessage⟩ := h
  refine ⟨message, hmessage ▸ receiveFrame_split answers ?_⟩
  rw [hmessage]
  simp

/-- **Frames and descriptors cross the socket intact**, however the kernel splits the bytes and
whichever calls it interrupts. -/
theorem frames_cross (xmlReadMemory : Bytes → Option Doc) (value : Value) (bytes : Bytes) (descriptors : List Nat)
    (hdescriptors : descriptors.length ≤ maxDescriptors) (hframe : frame value = .ok bytes)
    (hparse : parsePlist xmlReadMemory (bytes.drop 4) false = .ok value) :
    -- everything is sent
    (∀ answers, sendFrame value descriptors answers = .returned (sendmsg descriptors bytes) ∨
      sendFrame value descriptors answers = .waiting ∧ moves answers < bytes.length) ∧
    -- and received
    (∀ closed held rest answers, Settled answers
      (receiveFrame xmlReadMemory closed (some held) (sendmsg descriptors bytes ++ rest) answers)
      (.returned ⟨some value, some (held ++ descriptors), rest⟩)) ∧
    -- without a vector
    (descriptors ≠ [] → ∀ closed rest answers, ∃ message, Settled answers
      (receiveFrame xmlReadMemory closed none (sendmsg descriptors bytes ++ rest) answers) (.raised message)) ∧
    -- descriptors on a later byte of a frame
    (∀ closed vector before c received rest, before ≠ [] → received ≠ [] →
      before.length < 4 + frameSize ((before ++ (c, received) :: rest).map (·.1)) → ∀ answers, ∃ message,
        Settled answers (receiveFrame xmlReadMemory closed vector (before ++ (c, received) :: rest) answers)
          (.raised message)) ∧
    -- truncation
    (∀ vector answers, Settled answers (receiveFrame xmlReadMemory true vector [] answers)
      (.returned ⟨none, vector, []⟩)) ∧
    ∀ vector stream, stream ≠ [] → stream.length < 4 + frameSize (stream.map (·.1)) → ∀ answers, ∃ message,
      Settled answers (receiveFrame xmlReadMemory true vector stream answers) (.raised message) := by
  obtain ⟨payload, rfl, hne, hsize⟩ := frame_framed hframe
  have hpayload : (framed payload).drop 4 = payload := rfl
  rw [hpayload] at hparse
  refine ⟨fun answers => ?_, fun closed held rest answers => ?_, fun hsome closed rest answers => ?_, ?_, ?_, ?_⟩
  · rw [sendFrame, if_neg (not_lt.2 hdescriptors), hframe]
    exact (sendFrom_split rfl).symm
  · have hwhole : wholeFrame xmlReadMemory closed (some held) (sendmsg descriptors (framed payload) ++ rest) =
        .returned ⟨some value, some (held ++ descriptors), rest⟩ :=
      wholeFrame_sent hdescriptors (.inr (by simp)) hne hsize hparse
    have hsettled : Settled answers
        (receiveFrame xmlReadMemory closed (some held) (sendmsg descriptors (framed payload) ++ rest) answers)
        (wholeFrame xmlReadMemory closed (some held) (sendmsg descriptors (framed payload) ++ rest)) := by
      apply receiveFrame_split
      rw [hwhole]
      simp
    rwa [hwhole] at hsettled
  · apply settled_raises
    obtain ⟨c, header, hframed, -, -⟩ := framed_cons payload
    rw [hframed, sendmsg, List.cons_append]
    apply raises_bind
    rw [← List.nil_append ((c, descriptors) :: _)]
    exact exactly_unexpected (by decide) hsome (.inl rfl)
  · intro closed vector before c received rest hlater hsome hwithin answers
    exact settled_raises answers (wholeFrame_later xmlReadMemory hsome hlater hwithin)
  · intro vector answers
    have hwhole : wholeFrame xmlReadMemory true vector [] = .returned ⟨none, vector, []⟩ := rfl
    have hsettled : Settled answers (receiveFrame xmlReadMemory true vector [] answers)
        (wholeFrame xmlReadMemory true vector []) := receiveFrame_split answers (by rw [hwhole]; simp)
    rwa [hwhole] at hsettled
  · intro vector stream hsome hshort answers
    exact settled_raises answers (wholeFrame_short xmlReadMemory hsome hshort)

/-- What libxml2 reads for the encoding of `true`. -/
def docTrue : Doc where
  root := some (⟨ascii "plist", [⟨ascii "version", false, some (ascii "1.0")⟩], false, false⟩,
    [.element (.plain (ascii "true")) []])
  intSubset := false

def textTrue : Bytes := Launchd.plistHead ++ ascii "<true/>" ++ ascii "</plist>"

theorem parsePlist_true : parsePlist (fun _ => some docTrue) textTrue false = .ok (.boolean true) := by
  have hsize : ¬ (textTrue = [] ∨ textTrue.length > maxMessage ∨ 0 ∈ textTrue) := by decide +kernel
  have hplain : ¬ (ascii "<!ENTITY" <:+: textTrue ∨ ascii "<![" <:+: textTrue) := by decide +kernel
  rw [parsePlist]
  simp only [Launchd.throwIf, if_neg hsize, if_neg hplain]
  rfl

/-- One value with two descriptors, sent and received three bytes at a time. -/
theorem frames_cross_true : frame (.boolean true) = .ok (framed textTrue) ∧
    Settled (List.replicate 40 (.moved 2))
      (receiveFrame (fun _ => some docTrue) false (some []) (sendmsg [7, 5] (framed textTrue) ++ [])
        (List.replicate 40 (.moved 2)))
      (.returned ⟨some (.boolean true), some [7, 5], []⟩) := by
  have hframe : frame (.boolean true) = .ok (framed textTrue) := rfl
  exact ⟨hframe, (frames_cross (fun _ => some docTrue) (.boolean true) _ [7, 5] (by decide) hframe
    parsePlist_true).2.1 false [] [] _⟩

end MiniDarwin.Open
