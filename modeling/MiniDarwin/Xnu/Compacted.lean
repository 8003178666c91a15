import MiniDarwin.Xnu.Collection

/-!
What `prepare-collection.py` makes of a collection, and what
`verify-collection.py` accepts.

A collection is a header and its commands, each of which has its length in
its second word, and what comes after them. Both loops over the commands
are folds over that list, and a round depends on the bytes of its command
alone. So the first script is a filter of the list, and the second says the
same of the list before and after, but for the signature.
-/

namespace MiniDarwin.Xnu.Collection

open Data
open Relocation (unpack)

variable {image out b d : List UInt8} {h h' : Header} {off limit n m v : Nat}

theorem unpack_eq_some : unpack image off n = some v ↔ off + n ≤ image.length ∧ decodeLE (slice image off n) = v := by
  unfold unpack
  split
  · next hin => simp [hin]
  · next hin => simp [hin]

/-- Reading inside a piece. -/
theorem unpack_piece (hin : off + b.length ≤ image.length) (hb : slice image off b.length = b)
    (hn : m + n ≤ b.length) : unpack image (off + m) n = some (decodeLE (slice b m n)) := by
  have hslice : slice (slice image off b.length) m n = slice image (off + m) n := slice_slice hn
  rw [hb] at hslice
  rw [unpack_eq_some, hslice]
  exact ⟨by omega, rfl⟩

/-! ### Commands -/

/-- A load command. -/
structure Command where
  bytes : List UInt8
  long : 8 ≤ bytes.length
  aligned : bytes.length % 8 = 0
  sized : decodeLE (slice bytes 4 4) = bytes.length

def Command.number (c : Command) : Nat := decodeLE (slice c.bytes 0 4)

def Command.at (c : Command) (off : Nat) : Load := ⟨c.number, c.bytes.length, off⟩

/-- Commands one after another. -/
def joined (cs : List Command) : List UInt8 := (cs.map Command.bytes).flatten

@[simp] theorem joined_nil : joined [] = [] := rfl

@[simp] theorem joined_cons (c : Command) (cs : List Command) : joined (c :: cs) = c.bytes ++ joined cs := rfl

/-- The command that a round of the loops is about. -/
theorem load_iff (hlimit : limit ≤ image.length) {command length : Nat} :
    (unpack image off 4 = some command ∧ unpack image (off + 4) 4 = some length ∧
      (length ≥ 8 ∧ length % 8 = 0 ∧ off + length ≤ limit)) ↔
    ∃ c : Command, c.at off = ⟨command, length, off⟩ ∧ off + c.bytes.length ≤ limit ∧
      slice image off c.bytes.length = c.bytes := by
  constructor
  · rintro ⟨hcommand, hlength, hlong, haligned, hin⟩
    have hlen : (slice image off length).length = length := length_slice (by omega)
    rw [unpack_eq_some] at hcommand hlength
    have hsized : decodeLE (slice (slice image off length) 4 4) = (slice image off length).length := by
      rw [slice_slice (by omega), hlength.2, hlen]
    refine ⟨⟨slice image off length, by omega, by omega, hsized⟩, ?_, ?_, ?_⟩
    · have hnumber : decodeLE (slice (slice image off length) 0 4) = command := by
        rw [slice_slice (by omega), Nat.add_zero, hcommand.2]
      simp only [Command.at, Command.number, hnumber, hlen]
    · show off + (slice image off length).length ≤ limit
      rwa [hlen]
    · show slice image off (slice image off length).length = slice image off length
      rw [hlen]
  · rintro ⟨c, hat, hin, hc⟩
    obtain ⟨rfl, rfl⟩ : c.number = command ∧ c.bytes.length = length := by
      simpa [Command.at] using hat
    have hlong := c.long
    have hsized := unpack_piece (m := 4) (n := 4) (by omega) hc (by omega)
    rw [c.sized] at hsized
    exact ⟨unpack_piece (m := 0) (by omega) hc (by omega), hsized, hlong, c.aligned, hin⟩

/-- Commands lie one after another from `off` to `stop`. -/
structure Lie (image : List UInt8) (limit off : Nat) (cs : List Command) (stop : Nat) : Prop where
  inside : cs ≠ [] → stop ≤ limit
  stop : off + (joined cs).length = stop
  here : slice image off (joined cs).length = joined cs

theorem lie_nil {stop : Nat} : Lie image limit off [] stop ↔ off = stop := by
  constructor
  · exact fun hl => hl.stop
  · rintro rfl
    exact ⟨fun hne => absurd rfl hne, rfl, rfl⟩

theorem lie_cons {c : Command} {cs : List Command} {stop : Nat} : Lie image limit off (c :: cs) stop ↔
    (off + c.bytes.length ≤ limit ∧ slice image off c.bytes.length = c.bytes) ∧
      Lie image limit (off + c.bytes.length) cs stop := by
  constructor
  · rintro ⟨hin, hstop, hhere⟩
    rw [joined_cons, slice_eq_append_iff] at hhere
    rw [joined_cons, List.length_append] at hstop
    have hin := hin (by simp)
    exact ⟨⟨by omega, hhere.1⟩, fun _ => hin, by omega, hhere.2⟩
  · rintro ⟨⟨hin, hc⟩, hcs⟩
    refine ⟨fun _ => ?_, ?_, ?_⟩
    · by_cases hnil : cs = []
      · subst hnil
        rw [lie_nil] at hcs
        omega
      · exact hcs.inside hnil
    · rw [joined_cons, List.length_append, ← hcs.stop]
      omega
    · rw [joined_cons, slice_eq_append_iff]
      exact ⟨hc, hcs.here⟩

/-- The loop is a fold over the commands. -/
theorem walk_eq_some {σ : Type} {body : σ → Load → Option σ} {round : σ → Command → Option σ}
    (hlimit : limit ≤ image.length)
    (hbody : ∀ s c off, off + c.bytes.length ≤ limit → slice image off c.bytes.length = c.bytes →
      body s (c.at off) = round s c) {count stop : Nat} {s s' : σ} :
    walk image limit body count off s = some (stop, s') ↔
      ∃ cs : List Command, cs.length = count ∧ Lie image limit off cs stop ∧ cs.foldlM round s = some s' := by
  induction count generalizing off s with
  | zero =>
      constructor
      · rintro ⟨⟩
        exact ⟨[], rfl, lie_nil.2 rfl, rfl⟩
      · rintro ⟨cs, hlen, hlie, hfold⟩
        obtain rfl := List.eq_nil_of_length_eq_zero hlen
        cases hfold
        rw [lie_nil.1 hlie, walk]
  | succ count ih =>
      have hstep : walk image limit body (count + 1) off s = some (stop, s') ↔
          ∃ command length, (unpack image off 4 = some command ∧ unpack image (off + 4) 4 = some length ∧
            (length ≥ 8 ∧ length % 8 = 0 ∧ off + length ≤ limit)) ∧
            ∃ s1, body s ⟨command, length, off⟩ = some s1 ∧
              walk image limit body count (off + length) s1 = some (stop, s') := by
        simp only [walk, Option.bind_eq_bind, Option.bind_eq_some_iff, Option.guard_eq_some']
        grind
      rw [hstep]
      constructor
      · rintro ⟨command, length, hload, s1, hround, hrest⟩
        obtain ⟨c, hat, hin, hc⟩ := (load_iff hlimit).1 hload
        obtain ⟨cs, hlen, hlie, hfold⟩ := ih.1 hrest
        rw [← hat, hbody s c off hin hc] at hround
        obtain rfl : c.bytes.length = length := congrArg Load.length hat
        refine ⟨c :: cs, by rw [List.length_cons, hlen], lie_cons.2 ⟨⟨hin, hc⟩, hlie⟩, ?_⟩
        rw [List.foldlM_cons, hround]
        exact hfold
      · rintro ⟨cs, hlen, hlie, hfold⟩
        obtain ⟨c, cs, rfl⟩ := List.exists_cons_of_length_eq_add_one hlen
        obtain ⟨⟨hin, hc⟩, hrest⟩ := lie_cons.1 hlie
        rw [List.foldlM_cons, Option.bind_eq_bind, Option.bind_eq_some_iff] at hfold
        obtain ⟨s1, hround, hfold⟩ := hfold
        refine ⟨c.number, c.bytes.length, (load_iff hlimit).2 ⟨c, rfl, hin, hc⟩, s1, ?_, ?_⟩
        · exact (hbody s c off hin hc).trans hround
        · exact ih.2 ⟨cs, by simpa using hlen, hrest, hfold⟩

/-- Where they lie says which they are. -/
theorem Lie.unique {cs cs' : List Command} {stop : Nat} (hl : Lie image limit off cs stop)
    (hl' : Lie image limit off cs' stop) (hlimit : limit ≤ image.length) (hlen : cs.length = cs'.length) :
    cs = cs' := by
  induction cs generalizing cs' off with
  | nil => exact (List.eq_nil_of_length_eq_zero hlen.symm).symm
  | cons c cs ih =>
      obtain ⟨c', cs', rfl⟩ := List.exists_cons_of_length_eq_add_one hlen.symm
      obtain ⟨⟨hin, hc⟩, hrest⟩ := lie_cons.1 hl
      obtain ⟨⟨hin', hc'⟩, hrest'⟩ := lie_cons.1 hl'
      have hlong := c.long
      have hlong' := c'.long
      -- both lengths are in the same word of the file
      have hsize : c.bytes.length = c'.bytes.length := by
        have hread := unpack_piece (m := 4) (n := 4) (by omega) hc (by omega)
        have hread' := unpack_piece (m := 4) (n := 4) (by omega) hc' (by omega)
        rw [c.sized] at hread
        rw [c'.sized] at hread'
        exact Option.some.inj (hread.symm.trans hread')
      have hbytes : c.bytes = c'.bytes := by rw [← hc, ← hc', hsize]
      obtain rfl : c = c' := by
        cases c
        cases c'
        cases hbytes
        rfl
      rw [ih hrest hrest' (by simpa using hlen)]

/-! ### The rounds -/

/-- What the first script asks of a signature. -/
def Command.BlobFits (c : Command) (size : Nat) : Prop :=
  c.bytes.length = 16 ∧ decodeLE (slice c.bytes 8 4) + decodeLE (slice c.bytes 12 4) ≤ size

instance (c : Command) (size : Nat) : Decidable (c.BlobFits size) := inferInstanceAs (Decidable (_ ∧ _))

/-- The commands but for the signature. -/
def unsigned (cs : List Command) : List Command := cs.filter fun c => c.number ≠ LC_CODE_SIGNATURE

def signatures (cs : List Command) : Nat := cs.countP fun c => c.number = LC_CODE_SIGNATURE

theorem length_unsigned (cs : List Command) : (unsigned cs).length + signatures cs = cs.length := by
  induction cs with
  | nil => rfl
  | cons c cs ih =>
      rw [unsigned, signatures] at ih ⊢
      by_cases hc : c.number = LC_CODE_SIGNATURE
      · rw [List.filter_cons_of_neg (by simpa using hc), List.countP_cons_of_pos (by simpa using hc), List.length_cons]
        omega
      · rw [List.filter_cons_of_pos (by simpa using hc), List.countP_cons_of_neg (by simpa using hc), List.length_cons,
          List.length_cons]
        omega

def compact (size : Nat) (s : Compacting) (c : Command) : Option Compacting :=
  if c.number = LC_CODE_SIGNATURE then
    if c.BlobFits size then some { s with removed := s.removed + 1 } else none
  else some { s with commands := s.commands ++ [c.bytes] }

theorem compactCommand_at {s : Compacting} {c : Command} (hin : off + c.bytes.length ≤ image.length)
    (hc : slice image off c.bytes.length = c.bytes) :
    compactCommand image s (c.at off) = compact image.length s c := by
  unfold compactCommand compact
  by_cases hsig : c.number = LC_CODE_SIGNATURE
  · rw [if_pos (show (c.at off).command = _ from hsig), if_pos hsig]
    by_cases hlen : c.bytes.length = 16
    · have hoffset := unpack_piece (m := 8) (n := 4) hin hc (by omega)
      have hsize := unpack_piece (m := 12) (n := 4) hin hc (by omega)
      by_cases hfits : decodeLE (slice c.bytes 8 4) + decodeLE (slice c.bytes 12 4) ≤ image.length
      · simp [Command.at, hlen, guard, hoffset, hsize, Command.BlobFits, hfits]
      · simp [Command.at, hlen, guard, hoffset, hsize, Command.BlobFits, hfits]
    · simp [Command.at, hlen, Command.BlobFits, guard]
  · rw [if_neg (show ¬ (c.at off).command = _ from hsig), if_neg hsig]
    simp only [Command.at, hc]
    rfl

theorem foldlM_compact {size : Nat} {cs : List Command} {s s' : Compacting} :
    cs.foldlM (compact size) s = some s' ↔ (∀ c ∈ cs, c.number = LC_CODE_SIGNATURE → c.BlobFits size) ∧
      s' = ⟨s.commands ++ (unsigned cs).map Command.bytes, s.removed + signatures cs⟩ := by
  induction cs generalizing s with
  | nil =>
      simp only [List.foldlM_nil, unsigned, signatures]
      constructor
      · rintro ⟨⟩
        exact ⟨by simp, by simp⟩
      · rintro ⟨-, rfl⟩
        simp
  | cons c cs ih =>
      rw [List.foldlM_cons, compact, List.forall_mem_cons]
      by_cases hsig : c.number = LC_CODE_SIGNATURE
      · by_cases hfits : c.BlobFits size
        · rw [if_pos hsig, if_pos hfits, Option.bind_eq_bind, Option.bind_some, ih]
          simp [unsigned, signatures, hsig, hfits, Nat.add_assoc, Nat.add_comm]
        · simp [hsig, hfits]
      · rw [if_neg hsig, Option.bind_eq_bind, Option.bind_some, ih]
        simp [unsigned, signatures, hsig]

/-! #### The verifier's -/

/-- Where the name of an entry begins. -/
def Command.nameoff (c : Command) : Nat := decodeLE (slice c.bytes 24 4)

def Command.entry (c : Command) : Option Entry :=
  if c.number = LC_FILESET_ENTRY then
    some
      { name := (slice c.bytes c.nameoff (c.bytes.length - c.nameoff)).takeWhile (· ≠ 0)
        vmaddr := decodeLE (slice c.bytes 8 8)
        fileoff := decodeLE (slice c.bytes 16 8) }
  else none

def Command.segment (c : Command) : Option Segment :=
  if c.number = LC_SEGMENT_64 then
    some
      { vmaddr := decodeLE (slice c.bytes 24 8)
        vmsize := decodeLE (slice c.bytes 32 8)
        fileoff := decodeLE (slice c.bytes 40 8)
        filesize := decodeLE (slice c.bytes 48 8) }
  else none

/-- What the verifier asks of a command, but for not being a signature. -/
def Command.Passes (c : Command) (size : Nat) : Prop :=
  (c.number = LC_FILESET_ENTRY → 32 ≤ c.bytes.length ∧ 32 ≤ c.nameoff ∧ c.nameoff < c.bytes.length ∧
    decodeLE (slice c.bytes 28 4) = 0) ∧
      ∀ s ∈ c.segment, 72 ≤ c.bytes.length ∧ s.fileoff + s.filesize ≤ size

instance (c : Command) (size : Nat) : Decidable (c.Passes size) := inferInstanceAs (Decidable (_ ∧ _))

def check (size : Nat) (s : Fileset) (c : Command) : Option Fileset :=
  if c.number ≠ LC_CODE_SIGNATURE ∧ c.Passes size then
    some ⟨s.entries ++ c.entry.toList, s.segments ++ c.segment.toList, s.thread || c.number = LC_UNIXTHREAD⟩
  else none

section

variable {s : Fileset} {c : Command} (hin : off + c.bytes.length ≤ image.length)
  (hc : slice image off c.bytes.length = c.bytes)
include hin hc

/-- The round of an entry. -/
theorem verifyCommand_entry (hentry : c.number = LC_FILESET_ENTRY) :
    verifyCommand image s (c.at off) = check image.length s c := by
  have read : ∀ m n, m + n ≤ c.bytes.length → unpack image (off + m) n = some (decodeLE (slice c.bytes m n)) :=
    fun m n => unpack_piece hin hc
  have hsig : c.number ≠ LC_CODE_SIGNATURE := by rw [hentry]; decide
  have hthread : c.number ≠ LC_UNIXTHREAD := by rw [hentry]; decide
  have hsegment : c.segment = none := if_neg (by rw [hentry]; decide)
  by_cases hlen : 32 ≤ c.bytes.length
  · have hvmaddr := read 8 8 (by omega)
    have hfileoff := read 16 8 (by omega)
    have hnameoff : unpack image (off + 24) 4 = some c.nameoff := read 24 4 (by omega)
    have hreserved := read 28 4 (by omega)
    by_cases hfits : 32 ≤ c.nameoff ∧ c.nameoff < c.bytes.length ∧ decodeLE (slice c.bytes 28 4) = 0
    · have hname : slice image (off + c.nameoff) (c.bytes.length - c.nameoff) =
          slice c.bytes c.nameoff (c.bytes.length - c.nameoff) := by
        have hpiece : slice (slice image off c.bytes.length) c.nameoff (c.bytes.length - c.nameoff) =
            slice image (off + c.nameoff) (c.bytes.length - c.nameoff) := slice_slice (by omega)
        rw [← hpiece, hc]
      have hpasses : c.Passes image.length := ⟨fun _ => ⟨hlen, hfits⟩, by simp [hsegment]⟩
      simp [verifyCommand, check, guard, Command.at, Command.entry, hsig, eq_true hentry, hlen, hvmaddr, hfileoff,
        hnameoff, hreserved, hfits, hname, hpasses, hsegment, hthread]
    · have hpasses : ¬ c.Passes image.length := fun hp => hfits (hp.1 hentry).2
      simp [verifyCommand, check, guard, Command.at, hsig, eq_true hentry, hlen, hvmaddr, hfileoff, hnameoff,
        hreserved, hfits, hpasses]
  · have hpasses : ¬ c.Passes image.length := fun hp => hlen (hp.1 hentry).1
    simp [verifyCommand, check, guard, Command.at, hsig, eq_true hentry, hlen, hpasses]

/-- The round of a segment. -/
theorem verifyCommand_segment (hseg : c.number = LC_SEGMENT_64) :
    verifyCommand image s (c.at off) = check image.length s c := by
  have read : ∀ m n, m + n ≤ c.bytes.length → unpack image (off + m) n = some (decodeLE (slice c.bytes m n)) :=
    fun m n => unpack_piece hin hc
  have hsig : c.number ≠ LC_CODE_SIGNATURE := by rw [hseg]; decide
  have hthread : c.number ≠ LC_UNIXTHREAD := by rw [hseg]; decide
  have hne : c.number ≠ LC_FILESET_ENTRY := by rw [hseg]; decide
  have hentry : c.entry = none := if_neg hne
  have hpasses : c.Passes image.length ↔
      72 ≤ c.bytes.length ∧ decodeLE (slice c.bytes 40 8) + decodeLE (slice c.bytes 48 8) ≤ image.length := by
    simp [Command.Passes, Command.segment, hne, eq_true hseg]
  by_cases hlen : 72 ≤ c.bytes.length
  · have hvmaddr := read 24 8 (by omega)
    have hvmsize := read 32 8 (by omega)
    have hfileoff := read 40 8 (by omega)
    have hfilesize := read 48 8 (by omega)
    by_cases hfits : decodeLE (slice c.bytes 40 8) + decodeLE (slice c.bytes 48 8) ≤ image.length
    · simp [verifyCommand, check, guard, Command.at, Command.segment, hsig, hne, eq_true hseg, hlen, hvmaddr, hvmsize,
        hfileoff, hfilesize, hfits, hpasses, hentry, hthread]
    · simp [verifyCommand, check, guard, Command.at, hsig, hne, eq_true hseg, hlen, hvmaddr, hvmsize, hfileoff,
        hfilesize, hfits, hpasses]
  · simp [verifyCommand, check, guard, Command.at, hsig, hne, eq_true hseg, hlen, hpasses]

theorem verifyCommand_at : verifyCommand image s (c.at off) = check image.length s c := by
  by_cases hentry : c.number = LC_FILESET_ENTRY
  · exact verifyCommand_entry hin hc hentry
  by_cases hseg : c.number = LC_SEGMENT_64
  · exact verifyCommand_segment hin hc hseg
  -- nothing else is read
  have hpasses : c.Passes image.length := ⟨fun he => absurd he hentry, by simp [Command.segment, hseg]⟩
  simp only [verifyCommand, check, guard, Command.at, Command.entry, Command.segment, hentry, hseg, hpasses]
  by_cases hsig : c.number = LC_CODE_SIGNATURE
  · simp [hsig]
  · by_cases hthread : c.number = LC_UNIXTHREAD
    · simp [hsig, eq_true hthread]
    · simp [hsig, hthread]

end

theorem foldlM_check {size : Nat} {cs : List Command} {s s' : Fileset} :
    cs.foldlM (check size) s = some s' ↔ (∀ c ∈ cs, c.number ≠ LC_CODE_SIGNATURE ∧ c.Passes size) ∧
      s' = ⟨s.entries ++ cs.filterMap Command.entry, s.segments ++ cs.filterMap Command.segment,
        s.thread || cs.any fun c => c.number = LC_UNIXTHREAD⟩ := by
  induction cs generalizing s with
  | nil =>
      constructor
      · rintro ⟨⟩
        simp
      · rintro ⟨-, rfl⟩
        simp
  | cons c cs ih =>
      rw [List.foldlM_cons, check, List.forall_mem_cons]
      by_cases hc : c.number ≠ LC_CODE_SIGNATURE ∧ c.Passes size
      · rw [if_pos hc, Option.bind_eq_bind, Option.bind_some, ih]
        have htoList : ∀ {α : Type} (f : Command → Option α),
            (f c).toList ++ cs.filterMap f = (c :: cs).filterMap f := by
          intro α f
          cases hf : f c <;> simp [hf]
        simp only [List.append_assoc, htoList, List.any_cons, Bool.or_assoc, eq_true hc, true_and]
      · rw [if_neg hc]
        simp [hc]

/-! ### Collections -/

theorem header_eq_some : header image off = some h ↔ off + 32 ≤ image.length ∧
    h = ⟨decodeLE (slice image off 4), decodeLE (slice image (off + 4) 4), decodeLE (slice image (off + 8) 4),
      decodeLE (slice image (off + 12) 4), decodeLE (slice image (off + 16) 4), decodeLE (slice image (off + 20) 4),
      decodeLE (slice image (off + 24) 4), decodeLE (slice image (off + 28) 4)⟩ := by
  constructor
  · intro hh
    simp only [header, Option.bind_eq_bind, Option.bind_eq_some_iff, unpack_eq_some] at hh
    obtain ⟨_, ⟨-, rfl⟩, _, ⟨-, rfl⟩, _, ⟨-, rfl⟩, _, ⟨-, rfl⟩, _, ⟨-, rfl⟩, _, ⟨-, rfl⟩, _, ⟨-, rfl⟩, _, ⟨hin, rfl⟩,
      hh⟩ := hh
    exact ⟨by omega, (Option.some.inj hh).symm⟩
  · rintro ⟨hin, rfl⟩
    have read : ∀ m, m + 4 ≤ 32 → unpack image (off + m) 4 = some (decodeLE (slice image (off + m) 4)) :=
      fun m hm => unpack_eq_some.2 ⟨by omega, rfl⟩
    have read0 := read 0 (by omega)
    rw [Nat.add_zero] at read0
    simp [header, read0, read 4 (by omega), read 8 (by omega), read 12 (by omega), read 16 (by omega),
      read 20 (by omega), read 24 (by omega), read 28 (by omega)]

/-- A file holds a collection: its header, and the commands it counts. -/
structure Holds (image : List UInt8) (h : Header) (cs : List Command) : Prop where
  header : header image 0 = some h
  inside : 32 + h.size ≤ image.length
  count : cs.length = h.count
  lie : Lie image (32 + h.size) 32 cs (32 + h.size)

theorem Holds.length_joined {cs : List Command} (hold : Holds image h cs) : (joined cs).length = h.size := by
  have hstop := hold.lie.stop
  omega

/-- A file holds one collection at most. -/
theorem Holds.unique {cs cs' : List Command} (hold : Holds image h cs) (hold' : Holds image h' cs') :
    h = h' ∧ cs = cs' := by
  obtain rfl : h = h' := Option.some.inj (hold.header.symm.trans hold'.header)
  exact ⟨rfl, hold.lie.unique hold'.lie hold.inside (hold.count.trans hold'.count.symm)⟩

/-- What the first script asks for. -/
structure Preparable (image : List UInt8) (h : Header) (cs : List Command) : Prop where
  holds : Holds image h cs
  magic : h.magic = MH_MAGIC_64
  kind : h.kind = MH_FILESET
  blobs : ∀ c ∈ cs, c.number = LC_CODE_SIGNATURE → c.BlobFits image.length
  single : signatures cs ≤ 1

/-- What stays, and zeros where the signature was. -/
def filled (h : Header) (cs : List Command) : List UInt8 :=
  joined (unsigned cs) ++ zeros (h.size - (joined (unsigned cs)).length)

/-- What it writes. -/
def compacted (image : List UInt8) (h : Header) (cs : List Command) : List UInt8 :=
  patch (patch image 32 (filled h cs)) 16
    (encodeLE 4 (unsigned cs).length ++ encodeLE 4 (joined (unsigned cs)).length)

theorem walk_compact {stop : Nat} {s : Compacting} (hin : 32 + h.size ≤ image.length) :
    walk image (32 + h.size) (compactCommand image) h.count 32 {} = some (stop, s) ↔
      ∃ cs : List Command, cs.length = h.count ∧ Lie image (32 + h.size) 32 cs stop ∧
        (∀ c ∈ cs, c.number = LC_CODE_SIGNATURE → c.BlobFits image.length) ∧
          s = ⟨(unsigned cs).map Command.bytes, signatures cs⟩ := by
  rw [walk_eq_some hin fun s c off hoff hc => compactCommand_at (by omega) hc]
  simp only [foldlM_compact, List.nil_append, Nat.zero_add]

theorem prepare_eq_some : prepare image = some out ↔ ∃ h cs, Preparable image h cs ∧ compacted image h cs = out := by
  unfold prepare
  simp only [Option.bind_eq_bind, Option.bind_eq_some_iff, Option.guard_eq_some']
  constructor
  · rintro ⟨h, hheader, -, ⟨hmagic, hkind⟩, -, hin, ⟨stop, s⟩, hs, -, ⟨rfl, hsingle⟩, hout⟩
    obtain ⟨cs, hcount, hlie, hblobs, rfl⟩ := (walk_compact hin).1 hs
    refine ⟨h, cs, ⟨⟨hheader, hin, hcount, hlie⟩, hmagic, hkind, hblobs, hsingle⟩, ?_⟩
    have hlen := length_unsigned cs
    have hunsigned : h.count - signatures cs = (unsigned cs).length := by omega
    rw [← Option.some.inj hout, compacted, filled, joined, hunsigned]
  · rintro ⟨h, cs, ⟨⟨hheader, hin, hcount, hlie⟩, hmagic, hkind, hblobs, hsingle⟩, rfl⟩
    refine ⟨h, hheader, (), ⟨hmagic, hkind⟩, (), hin, ⟨_, ⟨(unsigned cs).map Command.bytes, signatures cs⟩⟩,
      (walk_compact hin).2 ⟨cs, hcount, hlie, hblobs, rfl⟩, (), ⟨rfl, hsingle⟩, ?_⟩
    have hlen := length_unsigned cs
    have hunsigned : h.count - signatures cs = (unsigned cs).length := by omega
    rw [compacted, filled, joined, hunsigned]
    rfl

/-- The collection without its signature, in a file of the same size. -/
structure Compacted (image : List UInt8) (h : Header) (cs : List Command) (out : List UInt8) : Prop where
  length : out.length = image.length
  holds : Holds out { h with count := (unsigned cs).length, size := (joined (unsigned cs)).length } (unsigned cs)
  zeros : slice out (32 + (joined (unsigned cs)).length) (h.size - (joined (unsigned cs)).length) =
    zeros (h.size - (joined (unsigned cs)).length)
  rest : ∀ i, 32 + h.size ≤ i → out[i]? = image[i]?

theorem length_joined_unsigned_le (cs : List Command) : (joined (unsigned cs)).length ≤ (joined cs).length := by
  induction cs with
  | nil => exact Nat.le_refl _
  | cons c cs ih =>
      rw [unsigned] at ih ⊢
      rw [List.filter_cons]
      split
      · rw [joined_cons, joined_cons, List.length_append, List.length_append]
        omega
      · rw [joined_cons, List.length_append]
        omega

section

variable {cs : List Command} (hin : 32 + h.size ≤ image.length) (hle : (joined (unsigned cs)).length ≤ h.size)
include hle

theorem length_filled : (filled h cs).length = h.size := by
  rw [filled, List.length_append, zeros, List.length_replicate]
  omega

include hin

theorem filled_fits : 32 + (filled h cs).length ≤ image.length := by
  rwa [length_filled hle]

theorem words_fit : 16 + (encodeLE 4 (unsigned cs).length ++ encodeLE 4 (joined (unsigned cs)).length).length ≤
    (patch image 32 (filled h cs)).length := by
  rw [length_patch (filled_fits hin hle), List.length_append, length_encodeLE, length_encodeLE]
  omega

theorem length_compacted : (compacted image h cs).length = image.length := by
  rw [compacted, length_patch (words_fit hin hle), length_patch (filled_fits hin hle)]

/-- A piece that neither write is in. -/
theorem slice_compacted {p : Nat} (hapart : p + n ≤ 16 ∨ 24 ≤ p ∧ p + n ≤ 32 ∨ 32 + h.size ≤ p) :
    slice (compacted image h cs) p n = slice image p n := by
  have hfilled := length_filled hle
  rw [compacted, slice_patch_of_disjoint (words_fit hin hle) (by simp; omega),
    slice_patch_of_disjoint (filled_fits hin hle) (by omega)]

theorem slice_compacted_commands : slice (compacted image h cs) 32 (filled h cs).length = filled h cs := by
  rw [compacted, slice_patch_of_disjoint (words_fit hin hle) (by simp), slice_patch (filled_fits hin hle)]

/-- The count and the size in the new header. -/
theorem slice_compacted_words : slice (compacted image h cs) 16 4 = encodeLE 4 (unsigned cs).length ∧
    slice (compacted image h cs) 20 4 = encodeLE 4 (joined (unsigned cs)).length := by
  have hwords := slice_patch (words_fit hin hle)
  rw [slice_eq_append_iff, length_encodeLE, length_encodeLE] at hwords
  exact hwords

end

theorem Holds.unsigned_le {cs : List Command} (hold : Holds image h cs) : (joined (unsigned cs)).length ≤ h.size :=
  hold.length_joined ▸ length_joined_unsigned_le cs

theorem Preparable.compacts {cs : List Command} (hp : Preparable image h cs) :
    Compacted image h cs (compacted image h cs) := by
  have hle := hp.holds.unsigned_le
  obtain ⟨⟨hheader, hin, hcount, -⟩, -, -, -, -⟩ := hp
  obtain ⟨-, hfields⟩ := header_eq_some.1 hheader
  have hfewer : (unsigned cs).length ≤ h.count := by
    have hlen := length_unsigned cs
    omega
  have hlen := length_compacted hin hle
  have hcommands := slice_compacted_commands hin hle
  obtain ⟨hcountword, hsizeword⟩ := slice_compacted_words hin hle
  -- the words of the old header bound those of the new one
  have hword : ∀ p, decodeLE (slice image p 4) < 256 ^ 4 := fun p =>
    (decodeLE_lt _).trans_le (Nat.pow_le_pow_right (by decide) (List.length_take_le _ _))
  have hcountlt : h.count < 256 ^ 4 := by
    rw [hfields]
    exact hword _
  have hsizelt : h.size < 256 ^ 4 := by
    rw [hfields]
    exact hword _
  have hslices : slice (compacted image h cs) 32 (joined (unsigned cs)).length = joined (unsigned cs) ∧
      slice (compacted image h cs) (32 + (joined (unsigned cs)).length) (h.size - (joined (unsigned cs)).length) =
        zeros (h.size - (joined (unsigned cs)).length) := by
    rw [filled, slice_eq_append_iff] at hcommands
    rwa [zeros, List.length_replicate] at hcommands
  refine ⟨hlen, ⟨?_, ?_, rfl, ?_, rfl, hslices.1⟩, hslices.2, ?_⟩
  · refine header_eq_some.2 ⟨by omega, ?_⟩
    have kept : ∀ p, p + 4 ≤ 16 ∨ 24 ≤ p ∧ p + 4 ≤ 32 → slice (compacted image h cs) p 4 = slice image p 4 :=
      fun p hp => slice_compacted hin hle (by omega)
    simp only [Nat.zero_add, kept 0 (by omega), kept 4 (by omega), kept 8 (by omega), kept 12 (by omega),
      kept 24 (by omega), kept 28 (by omega), hcountword, hsizeword, decodeLE_encodeLE_of_lt (hfewer.trans_lt hcountlt),
      decodeLE_encodeLE_of_lt (hle.trans_lt hsizelt)]
    rw [hfields]
  · show 32 + (joined (unsigned cs)).length ≤ (compacted image h cs).length
    omega
  · exact fun _ => Nat.le_refl _
  · intro i hi
    have hslice := slice_compacted hin hle (p := i) (n := 1) (by omega)
    have hget := congrArg (·[0]?) hslice
    simpa [getElem?_slice] using hget

theorem unsigned_eq_self {cs : List Command} (hcs : ∀ c ∈ cs, c.number ≠ LC_CODE_SIGNATURE) : unsigned cs = cs :=
  List.filter_eq_self.2 (by simpa using hcs)

theorem unsigned_ne {cs : List Command} {c : Command} (hc : c ∈ unsigned cs) : c.number ≠ LC_CODE_SIGNATURE := by
  simpa using (List.mem_filter.1 hc).2

theorem signatures_eq_zero {cs : List Command} : signatures cs = 0 ↔ ∀ c ∈ cs, c.number ≠ LC_CODE_SIGNATURE := by
  simp [signatures]

/-- A second time changes nothing. -/
theorem Preparable.again {cs : List Command} (hp : Preparable image h cs) :
    prepare (compacted image h cs) = some (compacted image h cs) := by
  have hc := hp.compacts
  have hle := hp.holds.unsigned_le
  have hin := hp.holds.inside
  have hlen := hc.length
  have hself : unsigned (unsigned cs) = unsigned cs := unsigned_eq_self fun c => unsigned_ne
  refine prepare_eq_some.2 ⟨_, _, ⟨hc.holds, hp.magic, hp.kind, ?_, ?_⟩, ?_⟩
  · exact fun c hmem hsig => absurd hsig (unsigned_ne hmem)
  · exact (signatures_eq_zero.2 fun c => unsigned_ne).le.trans (Nat.zero_le _)
  · have hcommands := hc.holds.lie.here
    have hwords : slice (compacted image h cs) 16 8 =
        encodeLE 4 (unsigned cs).length ++ encodeLE 4 (joined (unsigned cs)).length := by
      obtain ⟨hcount, hsize⟩ := slice_compacted_words hin hle
      rw [slice_add _ 16 4 4, hcount, hsize]
    -- both writes put there what is there
    have hrest : patch (compacted image h cs) 32 (joined (unsigned cs)) = compacted image h cs := by
      rw [← hcommands]
      exact patch_slice (by omega)
    have hhead : patch (compacted image h cs) 16 (encodeLE 4 (unsigned cs).length ++
        encodeLE 4 (joined (unsigned cs)).length) = compacted image h cs := by
      rw [← hwords]
      exact patch_slice (by omega)
    rw [compacted]
    simp only [filled, hself, Nat.sub_self, zeros, List.replicate_zero, List.append_nil, hrest, hhead]

theorem compacted_of_prepare {cs : List Command} (hprepare : prepare image = some out) (hold : Holds image h cs) :
    Compacted image h cs out := by
  obtain ⟨h', cs', hp, rfl⟩ := prepare_eq_some.1 hprepare
  obtain ⟨rfl, rfl⟩ := hp.holds.unique hold
  exact hp.compacts

/-! A file with a driver and a signature, for the cases below. -/

def kernelEntry : Command where
  bytes := encodeLE 4 LC_FILESET_ENTRY ++ encodeLE 4 56 ++ encodeLE 8 4096 ++ encodeLE 8 0 ++ encodeLE 4 32 ++
    encodeLE 4 0 ++ kernelName ++ zeros 8
  long := by decide
  aligned := by decide
  sized := by decide

def driverName : List UInt8 := [112, 99, 105]

def driverEntry : Command where
  bytes := encodeLE 4 LC_FILESET_ENTRY ++ encodeLE 4 40 ++ encodeLE 8 4128 ++ encodeLE 8 224 ++ encodeLE 4 32 ++
    encodeLE 4 0 ++ driverName ++ zeros 5
  long := by decide
  aligned := by decide
  sized := by decide

def rawSignature : Command where
  bytes := encodeLE 4 LC_CODE_SIGNATURE ++ encodeLE 4 16 ++ encodeLE 4 240 ++ encodeLE 4 16
  long := by decide
  aligned := by decide
  sized := by decide

def textSegment : Command where
  bytes := encodeLE 4 LC_SEGMENT_64 ++ encodeLE 4 72 ++ zeros 16 ++ encodeLE 8 4096 ++ encodeLE 8 256 ++
    encodeLE 8 0 ++ encodeLE 8 256 ++ zeros 16
  long := by decide
  aligned := by decide
  sized := by decide

def unixThread : Command where
  bytes := encodeLE 4 LC_UNIXTHREAD ++ encodeLE 4 8
  long := by decide
  aligned := by decide
  sized := by decide

def signedHeader : Header := ⟨MH_MAGIC_64, CPU_TYPE_X86_64, 0, MH_FILESET, 5, 192, MH_DYLIB_IN_CACHE, 0⟩

def signedCommands : List Command := [kernelEntry, driverEntry, rawSignature, textSegment, unixThread]

def signedFile : List UInt8 :=
  encodeLE 4 MH_MAGIC_64 ++ encodeLE 4 CPU_TYPE_X86_64 ++ encodeLE 4 0 ++ encodeLE 4 MH_FILESET ++ encodeLE 4 5 ++
    encodeLE 4 192 ++ encodeLE 4 MH_DYLIB_IN_CACHE ++ encodeLE 4 0 ++ joined signedCommands ++
      (encodeLE 4 MH_MAGIC_64 ++ encodeLE 4 CPU_TYPE_X86_64 ++ encodeLE 4 0 ++ encodeLE 4 MH_KEXT_BUNDLE ++ zeros 16)

def preparedFile : List UInt8 := compacted signedFile signedHeader signedCommands

theorem prepare_signedFile : prepare signedFile = some preparedFile := by decide +kernel

theorem holds_signedFile : Holds signedFile signedHeader signedCommands where
  header := by decide +kernel
  inside := by decide +kernel
  count := rfl
  lie := ⟨fun _ => Nat.le_refl _, by decide +kernel, by decide +kernel⟩

/-- The script ends well on what it asks for alone; it leaves the collection
without its signature, and nothing to do for a second run. -/
theorem prepare_exact (image : List UInt8) : ((prepare image).isSome ↔ ∃ h cs, Preparable image h cs) ∧
    ∀ out, prepare image = some out →
      (∀ h cs, Holds image h cs → Compacted image h cs out) ∧ prepare out = some out := by
  constructor
  · rw [Option.isSome_iff_exists]
    constructor
    · rintro ⟨out, hout⟩
      obtain ⟨h, cs, hp, -⟩ := prepare_eq_some.1 hout
      exact ⟨h, cs, hp⟩
    · rintro ⟨h, cs, hp⟩
      exact ⟨_, prepare_eq_some.2 ⟨h, cs, hp, rfl⟩⟩
  · intro out hout
    obtain ⟨h, cs, hp, rfl⟩ := prepare_eq_some.1 hout
    exact ⟨fun h' cs' => compacted_of_prepare hout, hp.again⟩

theorem prepare_exact_signed : Compacted signedFile signedHeader signedCommands preparedFile ∧
    prepare preparedFile = some preparedFile :=
  have hout := (prepare_exact signedFile).2 preparedFile prepare_signedFile
  ⟨hout.1 signedHeader signedCommands holds_signedFile, hout.2⟩

/-! ### What passes -/

/-- What the verifier asks of a driver. -/
def Driver (image : List UInt8) (cpu : Nat) (segments : List Segment) (e : Entry) : Prop :=
  (∃ nested, header image e.fileoff = some nested ∧ nested.magic = MH_MAGIC_64 ∧ nested.cpu = cpu ∧
    nested.kind = MH_KEXT_BUNDLE) ∧ ∃ s ∈ segments, s.vmaddr ≤ e.vmaddr ∧ e.vmaddr < s.vmaddr + s.vmsize

theorem verifyDriver_eq_some {cpu : Nat} {segments : List Segment} {e : Entry} :
    verifyDriver image cpu segments e = some () ↔ Driver image cpu segments e := by
  simp only [verifyDriver, Driver, Option.bind_eq_bind, Option.bind_eq_some_iff, Option.guard_eq_some']
  constructor
  · rintro ⟨-, -, nested, hnested, -, hkind, hvm⟩
    exact ⟨⟨nested, hnested, hkind⟩, hvm⟩
  · rintro ⟨⟨nested, hnested, hkind⟩, hvm⟩
    exact ⟨(), (header_eq_some.1 hnested).1, nested, hnested, (), hkind, hvm⟩

theorem forM_eq_some {α : Type} {f : α → Option Unit} {l : List α} {u : Unit} :
    l.forM f = some u ↔ ∀ a ∈ l, f a = some () := by
  induction l with
  | nil =>
      exact iff_of_true rfl (by simp)
  | cons a l ih =>
      show (f a >>= fun _ => l.forM f) = some u ↔ _
      rw [List.forall_mem_cons, Option.bind_eq_bind, Option.bind_eq_some_iff]
      constructor
      · rintro ⟨_, ha, hl⟩
        exact ⟨ha, ih.1 hl⟩
      · rintro ⟨ha, hl⟩
        exact ⟨(), ha, ih.2 hl⟩

/-- What the verifier asks of a collection whose commands end at `limit`, but
for the signature. -/
structure Sound (image : List UInt8) (h : Header) (cs : List Command) (names : List (List UInt8)) (limit : Nat) :
    Prop where
  magic : h.magic = MH_MAGIC_64
  cpu : h.cpu = CPU_TYPE_X86_64
  kind : h.kind = MH_FILESET
  cached : h.flags &&& MH_DYLIB_IN_CACHE ≠ 0
  passes : ∀ c ∈ cs, c.Passes image.length
  thread : ∃ c ∈ cs, c.number = LC_UNIXTHREAD
  entries : (cs.filterMap Command.entry).map Entry.name = kernelName :: names
  distinct : (kernelName :: names).Nodup
  drivers : ∀ e ∈ (cs.filterMap Command.entry).tail, Driver image h.cpu (cs.filterMap Command.segment) e
  kernel : ∃ e ∈ (cs.filterMap Command.entry).head?, e.fileoff = 0 ∧
    ∃ g ∈ cs.filterMap Command.segment, g.vmaddr = e.vmaddr ∧ g.fileoff = 0 ∧ limit ≤ g.filesize

theorem walk_check {stop : Nat} {s : Fileset} (hin : 32 + h.size ≤ image.length) :
    walk image (32 + h.size) (verifyCommand image) h.count 32 {} = some (stop, s) ↔
      ∃ cs : List Command, cs.length = h.count ∧ Lie image (32 + h.size) 32 cs stop ∧
        (∀ c ∈ cs, c.number ≠ LC_CODE_SIGNATURE ∧ c.Passes image.length) ∧
          s = ⟨cs.filterMap Command.entry, cs.filterMap Command.segment,
            cs.any fun c => c.number = LC_UNIXTHREAD⟩ := by
  rw [walk_eq_some hin fun s c off hoff hc => verifyCommand_at (by omega) hc]
  simp only [foldlM_check, List.nil_append, Bool.false_or]

/-- The verifier accepts the collections without a signature of which this is so. -/
theorem verify_exact (image : List UInt8) (names : List (List UInt8)) : verify image names = some () ↔
    ∃ h cs, Holds image h cs ∧ signatures cs = 0 ∧ Sound image h cs names (32 + h.size) := by
  unfold verify
  simp only [Option.bind_eq_bind, Option.bind_eq_some_iff, Option.guard_eq_some', forM_eq_some, verifyDriver_eq_some]
  constructor
  · rintro ⟨h, hheader, -, ⟨hmagic, hcpu, hkind⟩, -, hcached, -, hin, ⟨stop, s⟩, hs, -, ⟨rfl, hthread⟩, -, hnames, -,
      hdistinct, _, hdrivers, kernel, hhead, -, hoff, hcovers⟩
    obtain ⟨cs, hcount, hlie, hcs, rfl⟩ := (walk_check hin).1 hs
    refine ⟨h, cs, ⟨hheader, hin, hcount, hlie⟩, signatures_eq_zero.2 fun c hc => (hcs c hc).1, hmagic, hcpu, hkind,
      hcached, fun c hc => (hcs c hc).2, by simpa using hthread, hnames, hdistinct, hdrivers, kernel, hhead, hoff,
      hcovers⟩
  · rintro ⟨h, cs, ⟨hheader, hin, hcount, hlie⟩, hnone, hs⟩
    obtain ⟨kernel, hhead, hoff, hcovers⟩ := hs.kernel
    refine ⟨h, hheader, (), ⟨hs.magic, hs.cpu, hs.kind⟩, (), hs.cached, (), hin, ⟨_, _⟩,
      (walk_check hin).2 ⟨cs, hcount, hlie, fun c hc => ⟨signatures_eq_zero.1 hnone c hc, hs.passes c hc⟩, rfl⟩, (),
      ⟨rfl, by simpa using hs.thread⟩, (), hs.entries, (), hs.distinct, (), hs.drivers, kernel, hhead, (), hoff,
      hcovers⟩

/-! ### One script after the other -/

theorem filterMap_unsigned {α : Type} {f : Command → Option α} (hf : ∀ c, c.number = LC_CODE_SIGNATURE → f c = none)
    (cs : List Command) : (unsigned cs).filterMap f = cs.filterMap f := by
  induction cs with
  | nil => rfl
  | cons c cs ih =>
      rw [unsigned] at ih ⊢
      by_cases hc : c.number = LC_CODE_SIGNATURE
      · rw [List.filter_cons_of_neg (by simpa using hc), List.filterMap_cons, hf c hc]
        exact ih
      · rw [List.filter_cons_of_pos (by simpa using hc), List.filterMap_cons, List.filterMap_cons, ih]

/-- The signature is neither a driver nor a segment. -/
theorem entry_of_signature (c : Command) (hc : c.number = LC_CODE_SIGNATURE) : c.entry = none :=
  if_neg (by rw [hc]; decide)

theorem segment_of_signature (c : Command) (hc : c.number = LC_CODE_SIGNATURE) : c.segment = none :=
  if_neg (by rw [hc]; decide)

theorem passes_of_signature {c : Command} {size : Nat} (hc : c.number = LC_CODE_SIGNATURE) : c.Passes size := by
  constructor
  · intro hentry
    rw [hc] at hentry
    exact absurd hentry (by decide)
  · simp [segment_of_signature c hc]

theorem mem_unsigned {cs : List Command} {c : Command} : c ∈ unsigned cs ↔ c ∈ cs ∧ c.number ≠ LC_CODE_SIGNATURE := by
  simp [unsigned]

theorem header_congr (hlen : out.length = image.length) (hget : ∀ i, off ≤ i → out[i]? = image[i]?) :
    header out off = header image off := by
  have hunpack : ∀ m n, unpack out (off + m) n = unpack image (off + m) n := by
    intro m n
    unfold unpack
    rw [hlen, slice_congr fun i hi _ => hget i (by omega)]
  have hfirst := hunpack 0 4
  rw [Nat.add_zero] at hfirst
  simp only [header, hunpack, hfirst]

/-- A prepared collection passes when the one before it has all that the
verifier asks for, but that it may have a signature and that the kernel's
segment may end with the commands that stay. -/
theorem prepared_verifies {cs : List Command} {names : List (List UInt8)} (hprepare : prepare image = some out)
    (hold : Holds image h cs) (hbeyond : ∀ e ∈ (cs.filterMap Command.entry).tail, 32 + h.size ≤ e.fileoff) :
    verify out names = some () ↔ Sound image h cs names (32 + (joined (unsigned cs)).length) := by
  have hc := compacted_of_prepare hprepare hold
  have hentries := filterMap_unsigned entry_of_signature cs
  have hsegments := filterMap_unsigned segment_of_signature cs
  have hdriver : ∀ e ∈ (cs.filterMap Command.entry).tail, ∀ cpu segments,
      (Driver out cpu segments e ↔ Driver image cpu segments e) := by
    intro e he cpu segments
    have hnested : header out e.fileoff = header image e.fileoff :=
      header_congr hc.length fun i hi => hc.rest i ((hbeyond e he).trans hi)
    rw [Driver, Driver, hnested]
  rw [verify_exact]
  constructor
  · rintro ⟨h', cs', hold', -, hs⟩
    obtain ⟨rfl, rfl⟩ := hc.holds.unique hold'
    obtain ⟨hmagic, hcpu, hkind, hcached, hpasses, ⟨c, hmem, hthread⟩, hnames, hdistinct, hdrivers, hkernel⟩ := hs
    rw [hentries] at hnames hdrivers hkernel
    rw [hsegments] at hdrivers hkernel
    refine ⟨hmagic, hcpu, hkind, hcached, ?_, ⟨c, (mem_unsigned.1 hmem).1, hthread⟩, hnames, hdistinct, ?_, hkernel⟩
    · intro c hmem
      by_cases hsig : c.number = LC_CODE_SIGNATURE
      · exact passes_of_signature hsig
      · exact hc.length ▸ hpasses c (mem_unsigned.2 ⟨hmem, hsig⟩)
    · exact fun e he => (hdriver e he _ _).1 (hdrivers e he)
  · rintro ⟨hmagic, hcpu, hkind, hcached, hpasses, ⟨c, hmem, hthread⟩, hnames, hdistinct, hdrivers, hkernel⟩
    refine ⟨_, _, hc.holds, signatures_eq_zero.2 fun c => unsigned_ne, hmagic, hcpu, hkind, hcached, ?_, ?_, ?_,
      hdistinct, ?_, ?_⟩
    · exact fun c hmem => hc.length ▸ hpasses c (mem_unsigned.1 hmem).1
    · exact ⟨c, mem_unsigned.2 ⟨hmem, by rw [hthread]; decide⟩, hthread⟩
    · rwa [hentries]
    · rw [hentries, hsegments]
      exact fun e he => (hdriver e he _ _).2 (hdrivers e he)
    · rwa [hentries, hsegments]

theorem prepared_verifies_signed : Sound signedFile signedHeader signedCommands [driverName]
    (32 + (joined (unsigned signedCommands)).length) :=
  (prepared_verifies prepare_signedFile holds_signedFile (by decide +kernel)).1 (by decide +kernel)

end MiniDarwin.Xnu.Collection
