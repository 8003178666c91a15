import MiniDarwin.Archive.Sizes

/-!
The limits of decompression, over everything that a process reads.

The loop of `inflate_limited ()` is taken apart here: every place in it is a
state, its numbers are the `size_t` of the source, and of zlib no more is
known than that it consumes from its input and fills the room it is offered.
A process reads compressed and raw members one after the other, as long as
nothing makes it `die ()`.
-/

namespace MiniDarwin.Archive

open Posix (Bytes)

/-! ### Numbers of type `size_t` -/

def word (n : Nat) : Nat := n % 2 ^ 64

/-- `a - b` -/
def wordSub (a b : Nat) : Nat := word (a + (2 ^ 64 - b))

theorem word_eq {n : Nat} (h : n < 2 ^ 64) : word n = n := Nat.mod_eq_of_lt h

theorem wordSub_eq {a b : Nat} (h : b ≤ a) (ha : a < 2 ^ 64) : wordSub a b = a - b := by
  unfold wordSub word
  omega

/-! ### zlib -/

/-- `inflateInit2 ()`, and `inflate ()` with `avail_in` and `avail_out`. -/
structure Inflater where
  Stream : Type
  init : (windowBits : Nat) → Option Stream
  inflate : Stream → (input : Bytes) → (room : Nat) → Step Stream
  consumed_le : ∀ s input room, (inflate s input room).consumed ≤ input.length
  produced_le : ∀ s input room, (inflate s input room).produced.length ≤ room

/-- Where there is room, `Z_OK` means that the call did something. -/
def Inflater.Progresses (f : Inflater) : Prop :=
  ∀ s input room, 0 < room → (f.inflate s input room).status = .ok →
    0 < (f.inflate s input room).consumed ∨ (f.inflate s input room).produced ≠ []

def Zlib.inflater (z : Zlib) : Inflater := ⟨z.Stream, z.init, z.inflate, z.consumed_le, z.produced_le⟩

theorem Zlib.inflater_progresses (z : Zlib) : z.inflater.Progresses :=
  fun s input room _ hok => z.progress s input room hok

/-! ### `inflate_limited ()`, place by place -/

/-- The arguments of a call. -/
structure Call where
  input : Bytes
  windowBits : Nat
  expected : Nat
  limit : Nat
  expected_lt : expected < 2 ^ 64
  limit_lt : limit < 2 ^ 64

/-- The variables of the loop. -/
structure Loop (σ : Type) where
  stream : σ
  /-- `z.next_in` and `z.avail_in` -/
  input : Bytes
  out : Bytes
  cap : Nat

/-- The capacity that the loop starts with. -/
def Call.initial (c : Call) : Nat := if c.expected ≠ 0 then c.expected else 65536

theorem Call.initial_pos (c : Call) : 0 < c.initial := by
  unfold Call.initial
  split
  · omega
  · omega

/-- What comes before the loop. -/
def Call.start (f : Inflater) (c : Call) : Result (Loop f.Stream) :=
  if c.input.length > uintMax then die "invalid compressed stream"
  else
    match f.init c.windowBits with
    | none => die "invalid compressed stream"
    | some s => if c.initial > c.limit then die "decompression limit" else .ok ⟨s, c.input, [], c.initial⟩

/-- `if (out.len == cap)` -/
def Loop.grow {σ : Type} (limit : Nat) (l : Loop σ) : Result (Loop σ) :=
  if l.out.length = l.cap then
    if l.cap = limit then die "decompression limit"
    else .ok { l with cap := if l.cap > limit / 2 then limit else word (l.cap * 2) }
  else .ok l

/-- `z.avail_out` -/
def Loop.room {σ : Type} (l : Loop σ) : Nat := min (wordSub l.cap l.out.length) uintMax

/-- The call of `inflate ()`. -/
def Loop.call (f : Inflater) (l : Loop f.Stream) : Step f.Stream := f.inflate l.stream l.input l.room

/-- The variables after the call. -/
def Loop.filled (f : Inflater) (l : Loop f.Stream) : Loop f.Stream :=
  ⟨(l.call f).stream, l.input.drop (l.call f).consumed, l.out ++ (l.call f).produced, l.cap⟩

/-- The rest of the round; it says whether that was the last one. -/
def Loop.fill (f : Inflater) (l : Loop f.Stream) : Result (Loop f.Stream × Bool) := do
  dieIf ((l.call f).status = .error) "corrupt compressed stream"
  dieIf ((l.call f).status ≠ .streamEnd ∧ (l.filled f).input = [] ∧ (l.call f).produced.length < l.room)
    "truncated compressed stream"
  return (l.filled f, (l.call f).status = .streamEnd)

/-- `decoded_account ()`: the new `decoded_total`. -/
def account (n total : Nat) : Result Nat :=
  if n > wordSub limitDecoded total then die "total decompression limit" else .ok (word (total + n))

/-- What comes after the loop. -/
def Call.finish {σ : Type} (c : Call) (l : Loop σ) (total : Nat) : Result Nat := do
  dieIf (l.input ≠ [] ∨ c.expected ≠ 0 ∧ l.out.length ≠ c.expected) "compressed stream size mismatch"
  account l.out.length total

/-- A raw member in `read_member ()`: the bounds of its size, its size and `decoded_account ()`. -/
def rawMember (encoded : Bytes) (size total : Nat) : Result Nat := do
  dieIf (size > limitMember) "XAR member out of bounds"
  dieIf (encoded.length ≠ size) "XAR member size mismatch"
  account encoded.length total

/-! ### Processes -/

inductive Place where
  /-- the loop's first statement -/
  | head
  /-- before `inflate ()` -/
  | filling
  /-- behind the loop -/
  | ended
  deriving DecidableEq

/-- Where a process is in its reads, with `decoded_total`. -/
inductive Process (σ : Type) where
  | idle (total : Nat)
  | decoding (place : Place) (c : Call) (l : Loop σ) (total : Nat)
  /-- a buffer has been returned -/
  | returned (limit expected : Nat) (out : Bytes) (total : Nat)

/-- The next reads are whatever the package has. -/
inductive Process.Steps (f : Inflater) : Process f.Stream → Process f.Stream → Prop where
  | start {total : Nat} {l : Loop f.Stream} (c : Call) (h : c.start f = .ok l) :
      Steps f (.idle total) (.decoding .head c l total)
  | grow {c : Call} {l l' : Loop f.Stream} {total : Nat} (h : l.grow c.limit = .ok l') :
      Steps f (.decoding .head c l total) (.decoding .filling c l' total)
  | again {c : Call} {l l' : Loop f.Stream} {total : Nat} (h : l.fill f = .ok (l', false)) :
      Steps f (.decoding .filling c l total) (.decoding .head c l' total)
  | leave {c : Call} {l l' : Loop f.Stream} {total : Nat} (h : l.fill f = .ok (l', true)) :
      Steps f (.decoding .filling c l total) (.decoding .ended c l' total)
  | finish {c : Call} {l : Loop f.Stream} {total total' : Nat} (h : c.finish l total = .ok total') :
      Steps f (.decoding .ended c l total) (.returned c.limit c.expected l.out total')
  | raw {total total' : Nat} (encoded : Bytes) (size : Nat) (h : rawMember encoded size total = .ok total') :
      Steps f (.idle total) (.returned limitMember size encoded total')
  | next {limit expected total : Nat} {out : Bytes} :
      Steps f (.returned limit expected out total) (.idle total)

/-- A process starts with nothing decoded. -/
def Process.Reachable (f : Inflater) : Process f.Stream → Prop :=
  Relation.ReflTransGen (Process.Steps f) (.idle 0)

/-- `decoded_total` -/
def Process.total {σ : Type} : Process σ → Nat
  | .idle total | .decoding _ _ _ total | .returned _ _ _ total => total

/-- The bytes that a process has just returned. -/
def Process.delivered {σ : Type} : Process σ → Nat
  | .returned _ _ out _ => out.length
  | _ => 0

/-- In the loop of a call. -/
inductive Process.InLoop {σ : Type} (c : Call) : Process σ → Prop where
  | head (l : Loop σ) (total : Nat) : InLoop c (.decoding .head c l total)
  | filling (l : Loop σ) (total : Nat) : InLoop c (.decoding .filling c l total)

/-! ### What holds at every place -/

/-- The bounds in the loop, and what makes the next operation on `cap` exact. -/
structure Loop.Within {σ : Type} (place : Place) (c : Call) (l : Loop σ) : Prop where
  input_le : l.input.length ≤ c.input.length
  cap_pos : 0 < l.cap
  cap_le : l.cap ≤ c.limit
  out_le : l.out.length ≤ l.cap
  doubles : l.cap ≤ c.limit / 2 → l.cap * 2 < 2 ^ 64
  room : place = .filling → l.out.length < l.cap

/-- `decoded_total` leaves a difference to `LIMIT_DECODED`, and a buffer keeps to its limit and its
expected length. -/
def Process.Within {σ : Type} : Process σ → Prop
  | .idle total => total ≤ limitDecoded
  | .decoding place c l total => total ≤ limitDecoded ∧ l.Within place c
  | .returned limit expected out total =>
      total ≤ limitDecoded ∧ out.length ≤ limit ∧ (expected ≠ 0 → out.length = expected)

variable {libs : Libs} {σ : Type} {f : Inflater} {c : Call} {place : Place} {p q : Process f.Stream}

theorem Loop.within_of_bounds {l : Loop σ} (hinput : l.input.length ≤ c.input.length) (hpos : 0 < l.cap)
    (hcap : l.cap ≤ c.limit) (hout : l.out.length ≤ l.cap) (hroom : place = .filling → l.out.length < l.cap) :
    l.Within place c where
  input_le := hinput
  cap_pos := hpos
  cap_le := hcap
  out_le := hout
  doubles := by
    intro hhalf
    have hlimit := c.limit_lt
    omega
  room := hroom

theorem Call.start_within {l : Loop f.Stream} (h : c.start f = .ok l) : l.Within .head c := by
  unfold Call.start at h
  split at h
  · cases h
  · split at h
    · cases h
    · split at h
      · cases h
      · next hcap =>
          obtain rfl := Except.ok.inj h
          refine Loop.within_of_bounds le_rfl c.initial_pos (not_lt.1 hcap) (Nat.zero_le _) ?_
          intro hplace
          cases hplace

/-- Nothing but the capacity changes, and there is room then. -/
theorem Loop.grow_within {l l' : Loop σ} (hl : l.Within .head c) (h : l.grow c.limit = .ok l') :
    l'.Within .filling c ∧ l'.stream = l.stream ∧ l'.input = l.input ∧ l'.out = l.out := by
  have hpos := hl.cap_pos
  have hcap := hl.cap_le
  have hout := hl.out_le
  unfold Loop.grow at h
  split at h
  · next hfull =>
      split at h
      · cases h
      · next hlimit =>
          obtain rfl := Except.ok.inj h
          -- a capacity that is doubled is at most half of the limit
          have hnew : l.cap < (if l.cap > c.limit / 2 then c.limit else word (l.cap * 2)) ∧
              (if l.cap > c.limit / 2 then c.limit else word (l.cap * 2)) ≤ c.limit := by
            split
            · omega
            · next hhalf =>
                rw [word_eq (hl.doubles (not_lt.1 hhalf))]
                omega
          refine ⟨Loop.within_of_bounds hl.input_le ?_ hnew.2 ?_ ?_, rfl, rfl, rfl⟩
          · exact hpos.trans hnew.1
          · exact hout.trans hnew.1.le
          · intro _
            exact hfull.trans_lt hnew.1
  · next hroom =>
      obtain rfl := Except.ok.inj h
      refine ⟨Loop.within_of_bounds hl.input_le hpos hcap hout ?_, rfl, rfl, rfl⟩
      intro _
      omega

/-- The room is what is left of the capacity, as far as zlib can be told. -/
theorem Loop.Within.room_eq {l : Loop σ} (hl : l.Within place c) :
    l.room = min (l.cap - l.out.length) uintMax := by
  have hlimit := c.limit_lt
  have hcap := hl.cap_le
  unfold Loop.room
  rw [wordSub_eq hl.out_le (by omega)]

theorem Loop.Within.room_pos {l : Loop σ} (hl : l.Within .filling c) : 0 < l.room := by
  have hroom := hl.room rfl
  rw [hl.room_eq]
  unfold uintMax
  omega

/-- A round that does not die has called `inflate ()` once. -/
theorem Loop.fill_eq {l l' : Loop f.Stream} {last : Bool} (h : l.fill f = .ok (l', last)) :
    l' = l.filled f ∧ (l.call f).status ≠ .error ∧ (last = true ↔ (l.call f).status = .streamEnd) := by
  have hfill : Returns (l.fill f) fun r =>
      r.1 = l.filled f ∧ (l.call f).status ≠ .error ∧ (r.2 = true ↔ (l.call f).status = .streamEnd) := by
    apply returns_bind
    apply returns_dieIf
    intro herror
    apply returns_bind
    apply returns_dieIf
    intro _
    exact returns_pure ⟨rfl, herror, decide_eq_true_iff⟩
  exact hfill _ h

theorem Loop.filled_within {l : Loop f.Stream} (hl : l.Within .filling c) (hplace : place ≠ .filling) :
    (l.filled f).Within place c := by
  have hproduced := f.produced_le l.stream l.input l.room
  have hroom : l.room ≤ l.cap - l.out.length := hl.room_eq ▸ min_le_left _ _
  have hout := hl.out_le
  apply Loop.within_of_bounds
  · show (l.input.drop (l.call f).consumed).length ≤ c.input.length
    rw [List.length_drop]
    exact (Nat.sub_le _ _).trans hl.input_le
  · exact hl.cap_pos
  · exact hl.cap_le
  · show (l.out ++ (l.call f).produced).length ≤ l.cap
    have hcall : (l.call f).produced.length ≤ l.room := hproduced
    rw [List.length_append]
    omega
  · intro h
    exact absurd h hplace

theorem account_within {n total total' : Nat} (htotal : total ≤ limitDecoded) (h : account n total = .ok total') :
    total' = total + n ∧ total' ≤ limitDecoded := by
  have hlimit : limitDecoded < 2 ^ 64 := by decide
  unfold account at h
  split at h
  · cases h
  · next hroom =>
      rw [wordSub_eq htotal hlimit] at hroom
      have htotal' := Except.ok.inj h
      rw [word_eq (by omega)] at htotal'
      omega

theorem Call.finish_within {l : Loop σ} {total total' : Nat} (hl : l.Within .ended c) (htotal : total ≤ limitDecoded)
    (h : c.finish l total = .ok total') :
    total' = total + l.out.length ∧ total' ≤ limitDecoded ∧ l.out.length ≤ c.limit ∧
      (c.expected ≠ 0 → l.out.length = c.expected) := by
  have hfinish : Returns (c.finish l total) fun total' =>
      (total' = total + l.out.length ∧ total' ≤ limitDecoded) ∧ (c.expected ≠ 0 → l.out.length = c.expected) := by
    apply returns_bind
    apply returns_dieIf
    intro hsize n hn
    refine ⟨account_within htotal hn, ?_⟩
    intro hexpected
    by_contra hne
    exact hsize (.inr ⟨hexpected, hne⟩)
  obtain ⟨⟨hsum, htotal'⟩, hlength⟩ := hfinish _ h
  exact ⟨hsum, htotal', hl.out_le.trans hl.cap_le, hlength⟩

theorem rawMember_within {encoded : Bytes} {size total total' : Nat} (htotal : total ≤ limitDecoded)
    (h : rawMember encoded size total = .ok total') :
    total' = total + encoded.length ∧ total' ≤ limitDecoded ∧ encoded.length ≤ limitMember ∧
      encoded.length = size := by
  have hraw : Returns (rawMember encoded size total) fun total' =>
      total' = total + encoded.length ∧ total' ≤ limitDecoded ∧ encoded.length ≤ limitMember ∧
        encoded.length = size := by
    apply returns_bind
    apply returns_dieIf
    intro hlimit
    apply returns_bind
    apply returns_dieIf
    intro hsize n hn
    have heq : encoded.length = size := not_not.1 hsize
    obtain ⟨hsum, htotal'⟩ := account_within htotal hn
    exact ⟨hsum, htotal', heq.trans_le (not_lt.1 hlimit), heq⟩
  exact hraw _ h

/-- One step, whichever it is. -/
theorem Process.Steps.within (hp : p.Within) (h : Process.Steps f p q) : q.Within := by
  cases h with
  | start c h => exact ⟨hp, Call.start_within h⟩
  | grow h => exact ⟨hp.1, (Loop.grow_within hp.2 h).1⟩
  | again h =>
      obtain ⟨rfl, -, -⟩ := Loop.fill_eq h
      exact ⟨hp.1, Loop.filled_within hp.2 (by decide)⟩
  | leave h =>
      obtain ⟨rfl, -, -⟩ := Loop.fill_eq h
      exact ⟨hp.1, Loop.filled_within hp.2 (by decide)⟩
  | finish h => exact (Call.finish_within hp.2 hp.1 h).2
  | raw encoded size h =>
      obtain ⟨-, htotal, hlimit, hsize⟩ := rawMember_within hp h
      exact ⟨htotal, hlimit, fun _ => hsize⟩
  | next => exact hp.1

theorem Process.Reachable.within (h : p.Reachable) : p.Within := by
  induction h with
  | refl => exact Nat.zero_le _
  | tail _ hstep ih => exact hstep.within ih

/-- What a step adds to `decoded_total` it has returned. -/
theorem Process.Steps.total_eq (hp : p.Within) (h : Process.Steps f p q) : q.total = p.total + q.delivered := by
  cases h with
  | start c h => rfl
  | grow h => rfl
  | again h => rfl
  | leave h => rfl
  | finish h => exact (Call.finish_within hp.2 hp.1 h).1
  | raw encoded size h => exact (rawMember_within hp h).1
  | next => rfl

/-- And so over a run. -/
theorem Process.total_getLast {ps : List (Process f.Stream)} (hps : (p :: ps).IsChain (Process.Steps f))
    (hp : p.Within) : ((p :: ps).getLast (List.cons_ne_nil p ps)).total = p.total + (ps.map Process.delivered).sum := by
  induction ps generalizing p with
  | nil => rfl
  | cons q ps ih =>
      obtain ⟨hstep, htail⟩ := List.isChain_cons_cons.1 hps
      rw [List.getLast_cons_cons, ih htail (hstep.within hp), hstep.total_eq hp, List.map_cons, List.sum_cons,
        Nat.add_assoc]

/-! ### The end of the loop -/

/-- What the loop can still consume and produce, two steps for each byte. -/
def Process.left {σ : Type} : Process σ → Nat
  | .decoding .head c l _ => 2 * (l.input.length + (c.limit - l.out.length)) + 1
  | .decoding .filling c l _ => 2 * (l.input.length + (c.limit - l.out.length))
  | _ => 0

/-- A call that made progress leaves less. -/
theorem Loop.filled_lt {l : Loop f.Stream} (hf : f.Progresses) (hl : l.Within .filling c)
    (hok : (l.call f).status = .ok) :
    (l.filled f).input.length + (c.limit - (l.filled f).out.length) < l.input.length + (c.limit - l.out.length) := by
  have hroom : l.room ≤ l.cap - l.out.length := hl.room_eq ▸ min_le_left _ _
  have hlast := hl.room rfl
  have hcap := hl.cap_le
  have hprogress := (hf l.stream l.input l.room hl.room_pos hok).imp_right List.length_pos_iff.2
  have hconsumed := f.consumed_le l.stream l.input l.room
  have hproduced := f.produced_le l.stream l.input l.room
  show (l.input.drop (l.call f).consumed).length + (c.limit - (l.out ++ (l.call f).produced).length) < _
  rw [List.length_drop, List.length_append]
  unfold Loop.call
  omega

/-- It is neither the end of the stream nor an error. -/
theorem Loop.again_ok {l l' : Loop f.Stream} (h : l.fill f = .ok (l', false)) : (l.call f).status = .ok := by
  obtain ⟨-, herror, hlast⟩ := Loop.fill_eq h
  cases hstatus : (l.call f).status with
  | ok => rfl
  | streamEnd => exact absurd (hlast.2 hstatus) (by decide)
  | error => exact absurd hstatus herror

theorem Process.Steps.left_lt (hf : f.Progresses) (hp : p.Within) (h : Process.Steps f p q)
    (hloop : p.InLoop c) (hloop' : q.InLoop c) : q.left < p.left := by
  cases h with
  | grow h =>
      obtain ⟨-, -, hinput, hout⟩ := Loop.grow_within hp.2 h
      simp only [Process.left, hinput, hout]
      omega
  | again h =>
      have hlt := Loop.filled_lt hf hp.2 (Loop.again_ok h)
      obtain ⟨rfl, -, -⟩ := Loop.fill_eq h
      simp only [Process.left]
      omega
  | start c h => cases hloop
  | leave h => cases hloop'
  | finish h => cases hloop
  | raw encoded size h => cases hloop
  | next => cases hloop

theorem Process.left_le (hp : p.Within) (hloop : p.InLoop c) : p.left ≤ 2 * (c.input.length + c.limit) + 1 := by
  cases hloop with
  | head l total =>
      have hinput := hp.2.input_le
      simp only [Process.left]
      omega
  | filling l total =>
      have hinput := hp.2.input_le
      simp only [Process.left]
      omega

/-- The steps of a run in the loop are counted by what is left at its first. -/
theorem Process.length_le_left (hf : f.Progresses) {ps : List (Process f.Stream)}
    (hps : (p :: ps).IsChain (Process.Steps f)) (hp : p.Within) (hloop : ∀ q ∈ p :: ps, q.InLoop c) :
    ps.length ≤ p.left := by
  induction ps generalizing p with
  | nil => exact Nat.zero_le _
  | cons q ps ih =>
      obtain ⟨hstep, htail⟩ := List.isChain_cons_cons.1 hps
      have hle := ih htail (hstep.within hp) fun r hr => hloop r (List.mem_cons_of_mem _ hr)
      have hlt := hstep.left_lt hf hp (hloop p List.mem_cons_self) (hloop q (by simp))
      rw [List.length_cons]
      omega

/-- **Decompression keeps to its limits**, whatever zlib does and whatever is read one after the
other, and what is counted is the bytes of all that is returned; and where zlib makes progress a
call comes out of its loop, for a run in it is no longer than its input and its limit allow. -/
theorem decompression_within (f : Inflater) :
    (∀ p : Process f.Stream, p.Reachable → p.Within) ∧
      (∀ ps : List (Process f.Stream), (.idle 0 :: ps).IsChain (Process.Steps f) →
        ((Process.idle 0 :: ps).getLast (List.cons_ne_nil _ ps)).total = (ps.map Process.delivered).sum) ∧
      (f.Progresses → ∀ (c : Call) (p : Process f.Stream) (ps : List (Process f.Stream)), p.Reachable →
        (p :: ps).IsChain (Process.Steps f) → (∀ q ∈ p :: ps, q.InLoop c) →
          ps.length ≤ 2 * (c.input.length + c.limit) + 1) := by
  refine ⟨fun p hp => hp.within, ?_, ?_⟩
  · intro ps hps
    calc
      ((Process.idle 0 :: ps).getLast (List.cons_ne_nil _ ps)).total = 0 + (ps.map Process.delivered).sum :=
        Process.total_getLast hps (Nat.zero_le _)
      _ = (ps.map Process.delivered).sum := Nat.zero_add _
  · intro hf c p ps hp hps hloop
    calc
      ps.length ≤ p.left := Process.length_le_left hf hps hp.within hloop
      _ ≤ 2 * (c.input.length + c.limit) + 1 := Process.left_le hp.within (hloop p List.mem_cons_self)

/-! One byte that has been compressed, and one that has not. -/

def byteCall : Call := ⟨storedByte, 15, 1, 1, by decide, by decide⟩

/-- How they are read. -/
def byteReads : List (Process Unit) :=
  [.decoding .head byteCall ⟨(), storedByte, [], 1⟩ 0, .decoding .filling byteCall ⟨(), storedByte, [], 1⟩ 0,
    .decoding .ended byteCall ⟨(), [], [65], 1⟩ 0, .returned 1 1 [65] 1, .idle 1, .returned limitMember 1 [66] 2]

theorem decompression_within_bytes :
    (Process.returned limitMember 1 [66] 2 : Process Unit).Within ∧ 2 = (byteReads.map Process.delivered).sum ∧
      [(Process.decoding .filling byteCall ⟨(), storedByte, [], 1⟩ 0 : Process Unit)].length ≤ 2 * (12 + 1) + 1 := by
  have hstart : Process.Steps (oneStream storedByte [65]).inflater (.idle 0)
      (.decoding .head byteCall ⟨(), storedByte, [], 1⟩ 0) := .start byteCall (by rfl)
  have hgrow : Process.Steps (oneStream storedByte [65]).inflater (.decoding .head byteCall ⟨(), storedByte, [], 1⟩ 0)
      (.decoding .filling byteCall ⟨(), storedByte, [], 1⟩ 0) := .grow (by rfl)
  have hleave : Process.Steps (oneStream storedByte [65]).inflater
      (.decoding .filling byteCall ⟨(), storedByte, [], 1⟩ 0) (.decoding .ended byteCall ⟨(), [], [65], 1⟩ 0) :=
    .leave (by rfl)
  have hfinish : Process.Steps (oneStream storedByte [65]).inflater (.decoding .ended byteCall ⟨(), [], [65], 1⟩ 0)
      (.returned 1 1 [65] 1) := .finish (by rfl)
  have hraw : Process.Steps (oneStream storedByte [65]).inflater (.idle 1) (.returned limitMember 1 [66] 2) :=
    .raw [66] 1 (by rfl)
  obtain ⟨hwithin, htotal, hends⟩ := decompression_within (oneStream storedByte [65]).inflater
  refine ⟨hwithin _ ?_, htotal byteReads ?_, ?_⟩
  · exact .tail (.tail (.tail (.tail (.tail (.tail .refl hstart) hgrow) hleave) hfinish) .next) hraw
  · exact .cons_cons hstart (.cons_cons hgrow (.cons_cons hleave (.cons_cons hfinish (.cons_cons .next
      (.cons_cons hraw (.singleton _))))))
  · refine hends (Zlib.inflater_progresses _) byteCall
      (.decoding .head byteCall ⟨(), storedByte, [], 1⟩ 0) _ (.tail .refl hstart) (.cons_cons hgrow (.singleton _)) ?_
    exact List.forall_mem_cons.2 ⟨.head _ _, List.forall_mem_singleton.2 (.filling _ _)⟩

/-! ### The calls of the installer -/

/-- From one read to where the next one starts, or to what it returns. -/
def Process.Leads (f : Inflater) : Process f.Stream → Process f.Stream → Prop :=
  Relation.ReflTransGen (Process.Steps f)

theorem loopGrow_eq {l : Loop σ} (hl : l.Within .head c) {cap : Nat} (h : grow c.limit l.cap l.out = .ok cap) :
    l.grow c.limit = .ok { l with cap := cap } := by
  unfold grow at h
  unfold Loop.grow
  split at h
  · next hfull =>
      rw [if_pos hfull]
      split at h
      · cases h
      · next hlimit =>
          obtain rfl := Except.ok.inj h
          rw [if_neg hlimit]
          split
          · rfl
          · next hhalf => rw [word_eq (hl.doubles (not_lt.1 hhalf))]
  · next hroom =>
      obtain rfl := Except.ok.inj h
      rw [if_neg hroom]

theorem Loop.fill_ok {l : Loop f.Stream} {last : Bool} (herror : ¬ (l.call f).status = .error)
    (htruncated : ¬ ((l.call f).status ≠ .streamEnd ∧ (l.filled f).input = [] ∧ (l.call f).produced.length < l.room))
    (hlast : decide ((l.call f).status = .streamEnd) = last) : l.fill f = .ok (l.filled f, last) := by
  unfold Loop.fill
  rw [dieIf_eq_ok.2 herror, ← hlast]
  show (dieIf _ _ >>= _) = _
  rw [dieIf_eq_ok.2 htruncated]
  rfl

/-- The rounds of the loop, place by place. -/
theorem inflateRounds_leads (z : Zlib) (total : Nat) {rounds : Nat} {l : Loop z.Stream} (hl : l.Within .head c) :
    Returns (inflateRounds z c.limit rounds l.stream l.input l.out l.cap) fun r => ∃ l' : Loop z.Stream,
      Process.Leads z.inflater (.decoding .head c l total) (.decoding .ended c l' total) ∧
        l'.Within .ended c ∧ l'.out = r.1 ∧ l'.input = r.2 := by
  induction rounds generalizing l with
  | zero =>
      intro r hr
      cases hr
  | succ rounds ih =>
      apply returns_bind
      intro cap hcap
      have hgrow := loopGrow_eq hl hcap
      obtain ⟨hgrown, -⟩ := Loop.grow_within hl hgrow
      have hroom : Loop.room ({ l with cap := cap } : Loop z.Stream) = min (cap - l.out.length) uintMax :=
        hgrown.room_eq
      have hstep : Process.Leads z.inflater (.decoding .head c l total)
          (.decoding .filling c { l with cap := cap } total) := .single (.grow hgrow)
      apply returns_bind
      intro room hminus
      obtain rfl : cap - l.out.length = room := by
        unfold minus at hminus
        split at hminus
        · exact Except.ok.inj hminus
        · cases hminus
      rw [← hroom]
      apply returns_bind
      apply returns_dieIf
      intro herror
      apply returns_bind
      apply returns_dieIf
      intro htruncated
      split
      · next hend =>
          apply returns_pure
          refine ⟨Loop.filled z.inflater { l with cap := cap }, ?_, Loop.filled_within hgrown (by decide), rfl, rfl⟩
          exact hstep.tail (.leave (Loop.fill_ok herror htruncated (decide_eq_true hend)))
      · next hend =>
          have hhead : (Loop.filled z.inflater { l with cap := cap }).Within .head c :=
            Loop.filled_within hgrown (by decide)
          refine (ih hhead).mono ?_
          rintro r ⟨l', hleads, hrest⟩
          exact ⟨l', (hstep.tail (.again (Loop.fill_ok herror htruncated (decide_eq_false hend)))).trans hleads, hrest⟩

theorem returns_run_lift {α β : Type} {total : Nat} {y : Result α} {g : α → M β} {P : β × Nat → Prop}
    (h : Returns y fun a => Returns ((g a).run total) P) : Returns (((liftM y : M α) >>= g).run total) P := by
  rw [StateT.run_bind]
  apply returns_bind
  apply returns_bind
  refine h.mono ?_
  intro a ha
  exact returns_ok ha

theorem returns_run_bind {α β : Type} {total : Nat} {x : M α} {g : α → M β} {P : β × Nat → Prop}
    (h : Returns (x.run total) fun r => Returns ((g r.1).run r.2) P) : Returns ((x >>= g).run total) P := by
  rw [StateT.run_bind]
  exact returns_bind h

theorem decodedAccount_eq {n total : Nat} :
    Returns ((decodedAccount n).run total) fun r => r.2 = total + n ∧ account n total = .ok r.2 := by
  apply returns_bind
  intro room hroom
  unfold minus at hroom
  split at hroom
  · next hle =>
      obtain rfl := Except.ok.inj hroom
      apply returns_bind
      apply returns_dieIf
      intro hn
      have hlimit : limitDecoded < 2 ^ 64 := by decide
      apply returns_pure
      refine ⟨rfl, ?_⟩
      unfold account
      rw [wordSub_eq hle hlimit, if_neg hn, word_eq (by omega)]
  · cases hroom

/-- A call that returns goes through the places of the loop, with the same buffer at the end. -/
theorem inflateLimited_leads (z : Zlib) (c : Call) (total : Nat) :
    Returns ((inflateLimited z c.input c.windowBits c.expected c.limit).run total) fun r =>
      Process.Leads z.inflater (.idle total) (.returned c.limit c.expected r.1 r.2) := by
  apply returns_run_lift
  apply returns_dieIf
  intro hinput
  apply returns_run_lift
  intro s hs
  apply returns_run_lift
  apply returns_dieIf
  intro hcap
  have hstart : c.start z.inflater = .ok ⟨s, c.input, [], c.initial⟩ := by
    have hinit : z.inflater.init c.windowBits = some s := by
      unfold inflateInit at hs
      split at hs
      · next s' hs' =>
          obtain rfl := Except.ok.inj hs
          exact hs'
      · cases hs
    unfold Call.start
    rw [if_neg hinput, hinit]
    exact if_neg hcap
  apply returns_run_lift
  refine (inflateRounds_leads z total (Call.start_within hstart)).mono ?_
  rintro ⟨out, rest⟩ ⟨l, hleads, -, rfl, rfl⟩
  apply returns_run_lift
  apply returns_dieIf
  intro hsize
  apply returns_run_bind
  refine decodedAccount_eq.mono ?_
  rintro ⟨_, total'⟩ ⟨-, haccount⟩
  apply returns_pure
  have hfinish : c.finish l total = .ok total' := by
    unfold Call.finish
    rw [dieIf_eq_ok.2 hsize]
    exact haccount
  exact ((Relation.ReflTransGen.single (.start c hstart)).trans hleads).tail (.finish hfinish)

/-- A member is decoded by such a call, or it is raw. -/
theorem decodeMember_leads {encoding encoded : Bytes} {size : Nat} (hsize : size ≤ limitMember) (total : Nat) :
    Returns ((decodeMember libs encoding encoded size).run total) fun r =>
      Process.Leads libs.zlib.inflater (.idle total) (.returned limitMember size r.1 r.2) := by
  have hword : limitMember < 2 ^ 64 := by decide
  unfold decodeMember
  split
  · exact inflateLimited_leads libs.zlib ⟨encoded, 15, size, limitMember, hsize.trans_lt hword, hword⟩ total
  · split
    · apply returns_run_lift
      apply returns_dieIf
      intro hlength
      apply returns_run_bind
      refine decodedAccount_eq.mono ?_
      rintro ⟨_, total'⟩ ⟨-, haccount⟩
      apply returns_pure
      have hraw : rawMember encoded size total = .ok total' := by
        unfold rawMember
        rw [dieIf_eq_ok.2 (not_lt.2 hsize)]
        show (dieIf _ _ >>= _) = _
        rw [dieIf_eq_ok.2 hlength]
        exact haccount
      exact .single (.raw encoded size hraw)
    · intro r hr
      cases hr

/-- What `read_member ()` does to `decoded_total` is one read of the process. -/
theorem readMember_leads (data : Node) (heap : Bytes) (total : Nat) :
    Returns ((readMember libs data heap).run total) fun r => ∃ size, xmlChildUint data (lit "size") = .ok size ∧
      Process.Leads libs.zlib.inflater (.idle total) (.returned limitMember size r.1 r.2) := by
  apply returns_run_lift
  intro offset _
  apply returns_run_lift
  intro length _
  apply returns_run_lift
  intro size hsize
  apply returns_run_lift
  apply returns_dieIf
  intro _
  apply returns_run_lift
  intro room _
  apply returns_run_lift
  apply returns_dieIf
  intro hbounds
  apply returns_run_lift
  intro encoded _
  apply returns_run_lift
  intro _ _
  apply returns_run_lift
  intro encoding _
  apply returns_run_bind
  refine (decodeMember_leads (not_lt.1 fun hlt => hbounds (.inr hlt)) total).mono ?_
  rintro ⟨out, total'⟩ hleads
  apply returns_run_lift
  intro _ _
  apply returns_pure
  exact ⟨size, hsize, hleads⟩

end MiniDarwin.Archive
