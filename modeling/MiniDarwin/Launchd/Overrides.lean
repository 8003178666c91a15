import MiniDarwin.Launchd.Database

/-!
The overrides database over requests and restarts.

A session is a sequence of `enable` and `disable` requests and of restarts
of launchd on the same database. `said` is what the answers of a session
amount to: for each label the value of the last request about it that was
answered with `OK`. The memory, and the file if there is one, should agree
with that.
-/

namespace MiniDarwin.Launchd

open Posix (Bytes)
open Effects Effects.Proc

variable {env : Env} {w v u : World} {g : Unit}

/-! ### Sessions -/

/-- Nobody but launchd makes the file of the database. -/
def Untouched (env : Env) : (o : Op) → World → o.Ans → Prop
  | .lstat path, w, r => path = env.overrides → w.fileAt env path = none → ∃ e, r = .error e
  | .openRead path, w, r => path = env.overrides → w.fileAt env path = none → ∃ e, r = .error e
  | _, _, _ => True

/-- A call while nobody else uses the file. It may fail. -/
def alone (env : Env) : Sem calls World := fun o w r v => sem env o w r v ∧ Untouched env o w r

/-- The database can be read. -/
def Succeeds (env : Env) : (o : Op) → o.Ans → Prop
  | .openRead path, r => path = env.overrides → ∃ file, r = .ok file
  | .readAll _, r => ∃ bytes, r = .ok bytes
  | .fstat, r => r = .ok ()
  | _, _ => True

/-- There is a database. -/
def World.HasDatabase (env : Env) (w : World) : Prop :=
  ∃ data trusted, w.fileAt env env.overrides = some (.regular data trusted)

/-- A call while the database is read, which does not fail if there is one. -/
def faultless (env : Env) : Sem calls World := fun o w r v =>
  alone env o w r v ∧ (w.HasDatabase env → Succeeds env o r)

def overrideCommand (disabled : Bool) : Bytes := if disabled then ascii "disable" else ascii "enable"

/-- What is in force after an answer. -/
def answered (said : Label → Option Bool) (label : Label) (disabled : Bool) :
    Except Bytes Value → Label → Option Bool
  | .ok _ => Function.update said (stripSystem label) (some disabled)
  | .error _ => said

/-- The memory of a supervisor that is started again. -/
def World.restarted (w : World) : World := { w with sup := {} }

/-- `C` and `S` restrict the restarts: the state before one, and its calls. -/
inductive Session (env : Env) (C : World → Prop) (S : Sem calls World) :
    World → (Label → Option Bool) → Prop where
  | start (w : World) (hw : w.sup = {}) (hfile : w.fileAt env env.overrides = none) :
      Session env C S w fun _ => none
  | request {w v : World} {said : Label → Option Bool} (label : Label) (disabled : Bool)
      (r : Except Bytes Value) (h : Session env C S w said)
      (hr : Prog.Reach (alone env) (manage env (overrideCommand disabled) label ()) w
        (.ret (r, ())) v) : Session env C S v (answered said label disabled r)
  | restart {w v : World} {said : Label → Option Bool} {r : Except Bytes Unit}
      (h : Session env C S w said) (hC : C w)
      (hr : Prog.Reach S (readOverrides env ()) w.restarted (.ret (r, ())) v) :
      Session env C S v said

/-! ### Places -/

theorem splitLast_append {path s : Bytes} (h : ∀ c ∈ s, c ≠ 47) :
    splitLast (path ++ s) = ((splitLast path).1, (splitLast path).2 ++ s) := by
  have hname : ((path ++ s).reverse.takeWhile (· ≠ 47)).reverse =
      (path.reverse.takeWhile (· ≠ 47)).reverse ++ s := by
    rw [List.reverse_append, List.takeWhile_append_of_pos fun c hc => by
      simpa using h c (List.mem_reverse.1 hc)]
    simp
  have hlength : ((path.reverse.takeWhile (· ≠ 47)).reverse).length ≤ path.length := by
    simpa using (List.takeWhile_sublist (· ≠ 47) (l := path.reverse)).length_le
  unfold splitLast
  rw [hname]
  refine Prod.ext ?_ rfl
  have hdiff : (path ++ s).length - ((path.reverse.takeWhile (· ≠ 47)).reverse ++ s).length - 1 =
      path.length - ((path.reverse.takeWhile (· ≠ 47)).reverse).length - 1 := by
    simp only [List.length_append]
    omega
  dsimp only
  rw [hdiff, List.take_append_of_le_length (by omega)]

/-- The temporary file is not the database. -/
theorem place_temporary {path : Bytes} {q q' : Place}
    (hq : env.place (path ++ ascii ".new") = some q) (hq' : env.place path = some q') : q ≠ q' := by
  have hslash : ∀ c ∈ ascii ".new", c ≠ 47 := by simp [ascii]
  simp only [Env.place, splitLast_append hslash] at hq hq'
  split at hq
  · cases hq
  · split at hq'
    · cases hq'
    · obtain ⟨d, -, rfl⟩ := Option.map_eq_some_iff.1 hq
      obtain ⟨d', -, rfl⟩ := Option.map_eq_some_iff.1 hq'
      intro heq
      have hname := congrArg (fun x : Place => x.2.length) heq
      simp [ascii] at hname

/-- The file at a path when another place has changed. -/
theorem fileAt_put {path : Bytes} {q : Place} {node : Option Node}
    (h : ∀ q', env.place path = some q' → q ≠ q') :
    (w.put q node).fileAt env path = w.fileAt env path := by
  unfold World.fileAt World.put
  cases hp : env.place path with
  | none => rfl
  | some q' => exact Function.update_of_ne (Ne.symm (h q' hp)) _ _

theorem fileAt_put_self {path : Bytes} {q : Place} {node : Option Node}
    (h : env.place path = some q) : (w.put q node).fileAt env path = node := by
  simp [World.fileAt, World.put, h]

/-! ### A request -/

/-- The memory and the file are as they were. -/
def Kept (env : Env) (w v : World) : Prop :=
  v.sup = w.sup ∧ v.fileAt env env.overrides = w.fileAt env env.overrides

theorem Kept.refl (w : World) : Kept env w w := ⟨rfl, rfl⟩

theorem Kept.trans (h : Kept env w v) (h' : Kept env v u) : Kept env w u :=
  ⟨h'.1.trans h.1, h'.2.trans h.2⟩

theorem Kept.put {q : Place} (node : Option Node)
    (hq : env.place (env.overrides ++ ascii ".new") = some q) : Kept env w (w.put q node) :=
  ⟨rfl, fileAt_put fun _ => place_temporary hq⟩

/-- The specification of a part of a request. -/
abbrev Handles (env : Env) {α : Type} (m : M α) (Q : α → Unit → World → Prop)
    (D : Bytes → Unit → World → Prop) (g : Unit) (w : World) : Prop :=
  wp (alone env) (fun _ _ => True) m Q D g w

/-- A call that must succeed. -/
theorem handles_checked {o : Op} {operation : Bytes} {f : o.Ans → Except Errno Unit} {m : M Unit}
    {Q : Unit → Unit → World → Prop} {D : Bytes → Unit → World → Prop}
    (hok : ∀ r v, sem env o w r v → f r = .ok () → Handles env m Q D g v)
    (herr : ∀ r v e, sem env o w r v → f r = .error e → ∀ message, D message g v) :
    Handles env (ask o >>= fun r => orThrow env operation (f r) >>= fun _ => m) Q D g w := by
  refine wp_bind.2 ⟨trivial, fun r v hs => wp_bind.2 ?_⟩
  cases hr : f r with
  | ok x => exact hok r v hs.1 hr
  | error e => exact herr r v e hs.1 hr _

/-- A check before anything has been done. -/
theorem handles_lift {α β : Type} {r : Result α} {f : α → M β} {Q : β → Unit → World → Prop}
    (h : ∀ a, r = .ok a → Handles env (f a) Q (fun _ _ v => Kept env w v) g w) :
    Handles env (lift r >>= f) Q (fun _ _ v => Kept env w v) g w := by
  refine wp_bind.2 ?_
  cases r with
  | error message => exact Kept.refl w
  | ok a => exact h a rfl

theorem Labelled.insert {m : Map Label Bool} {l : Label} {b : Bool} (h : Labelled m.toList)
    (hl : validIdentifier l = true) : Labelled (m.insert l b).toList := by
  intro entry hentry
  rw [Std.ExtTreeMap.mem_toList_iff_getElem?_eq_some, Std.ExtTreeMap.getElem?_insert] at hentry
  split at hentry
  · next heq =>
      have : l = entry.1 := by simpa using heq
      rwa [← this]
  · exact h entry (Std.ExtTreeMap.mem_toList_iff_getElem?_eq_some.2 hentry)

/-- The database is the one of the memory. -/
structure Recorded (env : Env) (w : World) : Prop where
  labels : Labelled w.sup.overrides.toList
  size : (databaseText w.sup.overrides.toList).length ≤ maxMessage
  file : w.fileAt env env.overrides =
    some (.regular (databaseText w.sup.overrides.toList) (env.euid = 0))

/-- The part of a request in which files are written. -/
theorem handles_replace {bytes : Bytes} {updated : Map Label Bool}
    (hlabels : Labelled updated.toList) (hbytes : writePlist (overridesValue updated) = .ok bytes) :
    Handles env (do
      let _ ← ask (.unlink (env.overrides ++ ascii ".new"))
      orThrow env (ascii "create " ++ (env.overrides ++ ascii ".new"))
        (← ask (.create (env.overrides ++ ascii ".new")))
      orThrow env (ascii "chmod " ++ (env.overrides ++ ascii ".new")) (← ask .fchmod)
      orThrow env (ascii "write " ++ (env.overrides ++ ascii ".new"))
        (← ask (.write (env.overrides ++ ascii ".new") bytes))
      orThrow env (ascii "fsync " ++ (env.overrides ++ ascii ".new")) (← ask .fsync)
      orThrow env (ascii "rename " ++ (env.overrides ++ ascii ".new"))
        (← ask (.rename (env.overrides ++ ascii ".new") env.overrides))
      ask (.setOverrides updated))
      (fun _ _ v => v.sup = { w.sup with overrides := updated } ∧ Recorded env v)
      (fun _ _ v => Kept env w v) g w := by
  rw [writePlist_overrides hlabels] at hbytes
  split at hbytes
  · cases hbytes
  next hsize =>
  cases hbytes
  refine wp_bind.2 ⟨trivial, fun _ w1 h1 => ?_⟩
  have k1 : Kept env w w1 := by
    obtain ⟨⟨rfl, -⟩ | ⟨q, hq, -, -, rfl⟩, -⟩ := h1
    · exact .refl _
    · exact .put _ hq
  -- the temporary file
  refine handles_checked (fun r w2 h2 hr => ?_) fun r w2 e h2 hr _ => ?_
  rotate_left
  · obtain ⟨rfl, -⟩ | ⟨q, hq, -, rfl, rfl⟩ := h2
    · exact k1
    · cases hr
  obtain ⟨rfl, e, rfl⟩ | ⟨q, hq, -, -, rfl⟩ := h2
  · cases hr
  have k2 := k1.trans (Kept.put (some (.regular [] (env.euid = 0))) hq)
  refine handles_checked (fun r w3 h3 _ => ?_) fun r w3 e h3 _ _ => ?_
  rotate_left
  · obtain rfl : w3 = _ := h3
    exact k2
  obtain rfl : w3 = _ := h3
  -- its content
  refine handles_checked (fun r w4 h4 hr => ?_) fun r w4 e h4 hr _ => ?_
  rotate_left
  · obtain ⟨rfl, -⟩ | ⟨q', data, trusted, hq', -, -, rfl⟩ := h4
    · exact k2
    · exact k2.trans (.put _ hq')
  obtain ⟨rfl, e, rfl⟩ | ⟨q', data, trusted, hq', ⟨before, hbefore⟩, hdata, rfl⟩ := h4
  · cases hr
  obtain rfl : q = q' := Option.some.inj (hq.symm.trans hq')
  obtain rfl := hdata hr
  have htrusted : trusted = decide (env.euid = 0) := by
    simp [World.put] at hbefore
    exact hbefore.2.symm
  subst htrusted
  have k3 := k2.trans
    (Kept.put (some (.regular (databaseText updated.toList) (env.euid = 0))) hq)
  refine handles_checked (fun r w5 h5 _ => ?_) fun r w5 e h5 _ _ => ?_
  rotate_left
  · obtain rfl : w5 = _ := h5
    exact k3
  obtain rfl : w5 = _ := h5
  -- and its name
  refine handles_checked (fun r w6 h6 hr => ?_) fun r w6 e h6 hr _ => ?_
  rotate_left
  · obtain ⟨rfl, -⟩ | ⟨q1, q2, -, -, -, rfl, -⟩ := h6
    · exact k3
    · cases hr
  obtain ⟨rfl, e, rfl⟩ | ⟨q1, q2, hq1, hq2, -, -, rfl⟩ := h6
  · cases hr
  obtain rfl : q = q1 := Option.some.inj (hq.symm.trans hq1)
  refine ⟨trivial, fun _ v hv => ?_⟩
  obtain rfl : v = _ := hv.1
  refine ⟨?_, hlabels, not_lt.1 hsize, ?_⟩
  · show { w1.sup with overrides := updated } = _
    rw [k1.1]
  · show World.fileAt env (World.put (World.put _ q2 _) q none) env.overrides = _
    rw [fileAt_put fun q' hq' => place_temporary hq hq', fileAt_put_self hq2]
    simp [World.put]

theorem handles_setOverride {label : Label} {disabled : Bool}
    (hlabels : Labelled w.sup.overrides.toList) :
    Handles env (setOverride env label disabled)
      (fun _ _ v =>
        v.sup = { w.sup with overrides := w.sup.overrides.insert (stripSystem label) disabled } ∧
          Recorded env v)
      (fun _ _ v => Kept env w v) g w := by
  unfold setOverride
  refine handles_lift fun _ _ => handles_lift fun _ hvalid => ?_
  have hvalid' : validIdentifier (stripSystem label) = true := by
    by_contra hn
    simp [throwIf, hn] at hvalid
  refine wp_bind.2 ⟨trivial, fun s w0 h0 => ?_⟩
  obtain ⟨⟨rfl, hw0⟩, -⟩ := h0
  rw [hw0]
  refine handles_lift fun bytes hbytes => wp_bind.2 ?_
  have hmake : Handles env (makeDirectory env (splitLast env.overrides).1)
      (fun _ _ v => v = w) (fun _ _ v => v = w) g w := by
    unfold makeDirectory
    split
    · rfl
    · refine wp_bind.2 ⟨trivial, fun r v hv => ?_⟩
      have hsame : v = w := hv.1
      cases r with
      | ok x => exact hsame
      | error e => cases e <;> exact hsame
  refine hmake.post (fun _ _ v hv => ?_) fun _ _ v hv => ?_
  · subst hv
    exact handles_replace (hlabels.insert hvalid') hbytes
  · subst hv
    exact .refl _

/-- **A request.** It is carried out in full and answered, or nothing has changed. -/
theorem handles_request {label : Label} {disabled : Bool}
    (hlabels : Labelled w.sup.overrides.toList) :
    Handles env (manage env (overrideCommand disabled) label)
      (fun _ _ v =>
        v.sup = { w.sup with overrides := w.sup.overrides.insert (stripSystem label) disabled } ∧
          Recorded env v)
      (fun _ _ v => Kept env w v) g w := by
  refine wp_bind.2 ⟨trivial, fun s w0 h0 => ?_⟩
  obtain ⟨⟨rfl, hw0⟩, -⟩ := h0
  rw [hw0]
  refine handles_lift fun _ _ => handles_lift fun _ _ => ?_
  have hset : ∀ {value : Value} {command : Bytes},
      Handles env (setOverride env label disabled >>= fun _ =>
        ask (.answer command label) >>= fun _ => pure value)
        (fun _ _ v =>
          v.sup = { w.sup with overrides := w.sup.overrides.insert (stripSystem label) disabled } ∧
            Recorded env v)
        (fun _ _ v => Kept env w v) g w := by
    intro value command
    refine wp_bind.2 ((handles_setOverride hlabels).post (fun _ _ u hu => ?_) fun _ _ _ => id)
    refine wp_bind.2 ⟨trivial, fun _ v hv => ?_⟩
    obtain rfl : v = _ := hv.1
    exact ⟨hu.1, hu.2.labels, hu.2.size, hu.2.file⟩
  cases disabled with
  | true =>
      have hload : overrideCommand true ≠ ascii "load" := by decide
      have hdisable : overrideCommand true = ascii "disable" := rfl
      rw [if_neg hload, if_pos hdisable]
      exact hset
  | false =>
      have hload : overrideCommand false ≠ ascii "load" := by decide
      have hdisable : overrideCommand false ≠ ascii "disable" := by decide
      have henable : overrideCommand false = ascii "enable" := rfl
      rw [if_neg hload, if_neg hdisable, if_pos henable]
      exact hset

/-! ### A restart -/

theorem fileAt_nil : w.fileAt env [] = none := by
  simp [World.fileAt, Env.place, splitLast]

/-- The end of `readOverrides ()`: what was read is in force, and nothing if it could
not be read. -/
def storeRead : Except Bytes (Map Label Bool) → M Unit
  | .ok m => ask (.setOverrides m)
  | .error _ => ask (.setOverrides ∅)

/-- No database: nothing is in force. -/
theorem restart_absent (hsup : w.sup.overrides = ∅) (hfile : w.fileAt env env.overrides = none) :
    wp (faultless env) (fun _ _ => True) (readOverrides env)
      (fun _ _ v => v.sup.overrides = ∅ ∧ v.fileAt env env.overrides = none)
      (fun _ _ _ => False) g w := by
  unfold readOverrides
  split
  · exact ⟨hsup, hfile⟩
  refine wp_bind.2 ⟨trivial, fun r v hv => ?_⟩
  obtain ⟨⟨⟨rfl, -⟩, hlstat⟩, -⟩ := hv
  obtain ⟨e, rfl⟩ := hlstat rfl hfile
  have hread : wp (faultless env) (fun _ _ => True) (attempt (readDatabase env))
      (fun r _ u => (∃ message, r = .error message) ∧ u = v) (fun _ _ _ => False) g v := by
    refine wp_attempt.2 (wp_bind.2 (wp_bind.2 ⟨trivial, fun r u hu => ?_⟩))
    obtain ⟨⟨⟨rfl, -⟩, hopen⟩, -⟩ := hu
    obtain ⟨e', rfl⟩ := hopen rfl hfile
    exact ⟨⟨_, rfl⟩, rfl⟩
  have hset : wp (faultless env) (fun _ _ => True)
      (attempt (readDatabase env) >>= storeRead)
      (fun _ _ v => v.sup.overrides = ∅ ∧ v.fileAt env env.overrides = none)
      (fun _ _ _ => False) g v := by
    refine wp_bind.2 (hread.post ?_ fun _ _ _ => id)
    rintro r g' u ⟨⟨message, rfl⟩, rfl⟩
    refine ⟨trivial, fun _ u' hu' => ?_⟩
    obtain rfl : u' = _ := hu'.1.1
    exact ⟨rfl, hfile⟩
  cases e with
  | ENOENT => exact ⟨hsup, hfile⟩
  | _ => exact hset

/-- What the database of a map is read as: the map, or nothing when it has too
many entries. -/
def readAs (m : Map Label Bool) : Map Label Bool := if 16384 ≤ m.toList.length then ∅ else m

/-- The file of the database, when it is there and no call fails. -/
theorem restart_readFile {data : Bytes} {trusted : Bool} (hsize : data.length ≤ maxMessage)
    (hfile : w.fileAt env env.overrides = some (.regular data trusted))
    (htrusted : env.foreground = true ∨ trusted = true) :
    wp (faultless env) (fun _ _ => True) (readFile env env.overrides (!env.foreground))
      (fun bytes _ u => bytes = data ∧ u = w) (fun _ _ _ => False) g w := by
  have hthere : w.HasDatabase env := ⟨data, trusted, hfile⟩
  have hlong : ¬ data.length > maxMessage := not_lt.2 hsize
  have hsafe : ¬ ((!env.foreground) = true ∧ (!trusted) = true) := by
    rintro ⟨h, h'⟩
    simp at h h'
    simp [h, h'] at htrusted
  unfold readFile
  refine wp_bind.2 ⟨trivial, fun r w1 h1 => ?_⟩
  obtain ⟨⟨⟨hw1, hopen⟩, -⟩, hok⟩ := h1
  obtain ⟨file, rfl⟩ := hok hthere rfl
  simp only [hfile] at hopen
  obtain hopen | ⟨e, -, he⟩ := hopen
  · cases hopen
    rw [hw1]
    refine wp_bind.2 (wp_bind.2 ⟨trivial, fun r w2 h2 => ?_⟩)
    obtain ⟨⟨hw2, -⟩, hok⟩ := h2
    obtain rfl : r = .ok () := hok hthere
    obtain rfl : w = w2 := Eq.symm hw2
    have hregular : throwIf ((!true) = true ∨ data.length > maxMessage)
        (ascii "plist must be a regular file of at most 1 MiB") = .ok () :=
      if_neg (by simpa using hsize)
    have hroot : throwIf ((!env.foreground) = true ∧ (!trusted) = true)
        (ascii "system plist must be root-owned and not group/world writable") = .ok () :=
      if_neg hsafe
    have hshort : throwIf (data.length > maxMessage) (ascii "plist exceeds size limit") = .ok () :=
      if_neg hlong
    refine wp_bind.2 ?_
    rw [hregular, hroot]
    refine wp_bind.2 ⟨trivial, fun r w3 h3 => ?_⟩
    obtain ⟨⟨⟨hw3, hdata⟩, -⟩, hok⟩ := h3
    obtain ⟨bytes, rfl⟩ := hok hthere
    obtain rfl := hdata bytes rfl
    obtain rfl : w = w3 := Eq.symm hw3
    change wp _ _ (lift (throwIf (bytes.length > maxMessage) (ascii "plist exceeds size limit")) >>=
      fun _ => pure bytes) _ _ _ _
    rw [hshort]
    exact ⟨rfl, rfl⟩
  · cases he

/-- A database that launchd wrote is read as the map it was written for, or
cleared. -/
theorem restart_recorded {m : Map Label Bool} (hlabels : Labelled m.toList)
    (hsize : (databaseText m.toList).length ≤ maxMessage)
    (hfile : w.fileAt env env.overrides =
      some (.regular (databaseText m.toList) (env.euid = 0)))
    (htrusted : env.foreground = true ∨ env.euid = 0)
    (hxml : env.xmlReadMemory (databaseText m.toList) = some (databaseDoc m.toList)) :
    wp (faultless env) (fun _ _ => True) (readOverrides env)
      (fun _ _ v => v.sup.overrides = readAs m ∧
        v.fileAt env env.overrides = w.fileAt env env.overrides)
      (fun _ _ _ => False) g w := by
  have hdatabase : wp (faultless env) (fun _ _ => True) (readDatabase env)
      (fun m' _ u => m' = readAs m ∧ u = w) (fun _ _ u => readAs m = ∅ ∧ u = w) g w := by
    refine wp_bind.2 ((restart_readFile hsize hfile (by simpa using htrusted)).post ?_
      fun _ _ _ => False.elim)
    rintro bytes g' u ⟨rfl, rfl⟩
    have hback := readBack hlabels hsize hxml
    refine wp_bind.2 ?_
    -- an exception of the three functions is the one of too many values
    have hcleared : ∀ message : Bytes, (.error message : Result (Map Label Bool)) =
        (if 16384 ≤ m.toList.length then .error tooMany else .ok m) → readAs m = ∅ := by
      intro message h
      split at h
      · next hmany => exact if_pos hmany
      · cases h
    cases hvalue : parsePlist env.xmlReadMemory (databaseText m.toList) false with
    | error message =>
        rw [hvalue] at hback
        exact ⟨hcleared message hback, rfl⟩
    | ok value =>
        rw [hvalue] at hback
        refine wp_bind.2 ?_
        cases hdict : value.asDict with
        | error message =>
            replace hback : (value.asDict >>= fun dict => overridesOf dict ∅) = _ := hback
            rw [hdict] at hback
            exact ⟨hcleared message hback, rfl⟩
        | ok dict =>
            replace hback : (value.asDict >>= fun dict => overridesOf dict ∅) = _ := hback
            rw [hdict] at hback
            replace hback : overridesOf dict ∅ = _ := hback
            show wp _ _ (lift (overridesOf dict ∅)) _ _ _ _
            rw [hback]
            by_cases hmany : 16384 ≤ m.toList.length
            · rw [if_pos hmany]
              exact ⟨if_pos hmany, rfl⟩
            · rw [if_neg hmany]
              exact ⟨(if_neg hmany).symm, rfl⟩
  unfold readOverrides
  split
  · next hnil =>
      rw [hnil, fileAt_nil] at hfile
      cases hfile
  refine wp_bind.2 ⟨trivial, fun r v hv => ?_⟩
  obtain ⟨⟨⟨hvw, hlstat⟩, -⟩, -⟩ := hv
  have hset : wp (faultless env) (fun _ _ => True)
      (attempt (readDatabase env) >>= storeRead)
      (fun _ _ v => v.sup.overrides = readAs m ∧
        v.fileAt env env.overrides = w.fileAt env env.overrides)
      (fun _ _ _ => False) g v := by
    rw [hvw]
    refine wp_bind.2 (wp_attempt.2 (hdatabase.post ?_ ?_))
    · rintro m' g' u ⟨rfl, rfl⟩
      refine ⟨trivial, fun _ u' hu' => ?_⟩
      obtain rfl : u' = _ := hu'.1.1
      exact ⟨rfl, rfl⟩
    · rintro message g' u ⟨hempty, rfl⟩
      refine ⟨trivial, fun _ u' hu' => ?_⟩
      obtain rfl : u' = _ := hu'.1.1
      exact ⟨hempty.symm, rfl⟩
  simp only [hfile] at hlstat
  obtain rfl | ⟨e, he, rfl⟩ := hlstat
  · exact hset
  · cases e with
    | ENOENT => exact absurd rfl he
    | _ => exact hset

/-! ### Sessions, continued -/

/-- What libxml2 does with the texts of the database, as with all XML. -/
def ReadsXml (env : Env) : Prop :=
  ∀ entries : List (Label × Bool), Labelled entries →
    env.xmlReadMemory (databaseText entries) = some (databaseDoc entries)

/-- Memory and file agree with what was said. -/
structure Agrees (env : Env) (w : World) (said : Label → Option Bool) : Prop where
  memory : ∀ l : Label, w.sup.overrides[l]? = said l
  file : Recorded env w ∨ w.sup.overrides = ∅ ∧ w.fileAt env env.overrides = none

theorem Agrees.labels {said : Label → Option Bool} (h : Agrees env w said) :
    Labelled w.sup.overrides.toList := by
  obtain hr | ⟨hempty, -⟩ := h.file
  · exact hr.labels
  · simp [hempty, Labelled]

theorem Agrees.request {said : Label → Option Bool} {label : Label} {disabled : Bool}
    {r : Except Bytes Value} (h : Agrees env w said)
    (hr : Prog.Reach (alone env) (manage env (overrideCommand disabled) label ()) w
      (.ret (r, ())) v) :
    Agrees env v (answered said label disabled r) ∧ ∀ message, r = .error message → Kept env w v := by
  have hspec := Prog.Spec.reach (handles_request (g := ()) h.labels) hr
  cases r with
  | error message =>
      obtain ⟨hsup, hfile⟩ : Kept env w v := hspec
      refine ⟨⟨by rw [hsup]; exact h.memory, ?_⟩, fun _ _ => ⟨hsup, hfile⟩⟩
      obtain hr | ⟨hempty, habsent⟩ := h.file
      · exact .inl ⟨by rw [hsup]; exact hr.labels, by rw [hsup]; exact hr.size,
          by rw [hfile, hsup]; exact hr.file⟩
      · exact .inr ⟨by rw [hsup]; exact hempty, hfile.trans habsent⟩
  | ok value =>
      obtain ⟨hsup, hrecorded⟩ : _ ∧ Recorded env v := hspec
      refine ⟨⟨fun l => ?_, .inl hrecorded⟩, fun _ he => by cases he⟩
      rw [hsup]
      show (w.sup.overrides.insert (stripSystem label) disabled)[l]? = _
      rw [Std.ExtTreeMap.getElem?_insert]
      by_cases hl : l = stripSystem label
      · subst hl
        simp [answered]
      · simp [answered, Function.update_of_ne hl, Ne.symm hl, h.memory]

theorem Agrees.restart {said : Label → Option Bool} {r : Except Bytes Unit}
    (h : Agrees env w said) (htrusted : env.foreground = true ∨ env.euid = 0)
    (hxml : ReadsXml env) (hfew : w.sup.overrides.size < 16384)
    (hr : Prog.Reach (faultless env) (readOverrides env ()) w.restarted (.ret (r, ())) v) :
    Agrees env v said := by
  obtain hrec | ⟨hempty, habsent⟩ := h.file
  · have hfew' : ¬ 16384 ≤ w.sup.overrides.toList.length := by
      rw [Std.ExtTreeMap.length_toList]
      omega
    have hspec := Prog.Spec.reach (restart_recorded (w := w.restarted) (g := ()) hrec.labels hrec.size
      hrec.file htrusted (hxml _ hrec.labels)) hr
    cases r with
    | error message => exact hspec.elim
    | ok x =>
        obtain ⟨hoverrides, hfile⟩ : v.sup.overrides = readAs w.sup.overrides ∧ _ := hspec
        rw [readAs, if_neg hfew'] at hoverrides
        refine ⟨by rw [hoverrides]; exact h.memory, .inl ⟨?_, ?_, ?_⟩⟩
        · rw [hoverrides]
          exact hrec.labels
        · rw [hoverrides]
          exact hrec.size
        · rw [hoverrides, hfile]
          exact hrec.file
  · have hspec := Prog.Spec.reach (restart_absent (w := w.restarted) (g := ()) rfl habsent) hr
    cases r with
    | error message => exact hspec.elim
    | ok x =>
        obtain ⟨hoverrides, hfile⟩ : v.sup.overrides = ∅ ∧ _ := hspec
        refine ⟨fun l => ?_, .inr ⟨hoverrides, hfile⟩⟩
        rw [hoverrides, ← h.memory, hempty]

/-- Few enough labels for the reader. -/
def Few (w : World) : Prop := w.sup.overrides.size < 16384

theorem Session.agrees {said : Label → Option Bool}
    (h : Session env Few (faultless env) w said)
    (htrusted : env.foreground = true ∨ env.euid = 0) (hxml : ReadsXml env) :
    Agrees env w said := by
  induction h with
  | start w hw hfile =>
      refine ⟨fun l => ?_, .inr ⟨?_, hfile⟩⟩
      · simp [hw]
      · simp [hw]
  | request label disabled r _ hr ih => exact (ih.request hr).1
  | restart _ hC hr ih => exact ih.restart htrusted hxml hC hr

/-- **The overrides database is durable**, as long as fewer than 16384 labels have
an override when launchd is restarted and the database is read without a
failure: then memory agrees with what was answered, and a request that is
answered with an error changes neither memory nor file. -/
theorem overrides_durable (env : Env) (htrusted : env.foreground = true ∨ env.euid = 0)
    (hxml : ReadsXml env) (w : World) (said : Label → Option Bool)
    (h : Session env Few (faultless env) w said) :
    (∀ l : Label, w.sup.overrides[l]? = said l) ∧
      ∀ (label : Label) (disabled : Bool) (message : Bytes) (v : World),
        Prog.Reach (alone env) (manage env (overrideCommand disabled) label ()) w
          (.ret (.error message, ())) v →
        v.sup.overrides = w.sup.overrides ∧
          v.fileAt env env.overrides = w.fileAt env env.overrides := by
  have hagrees := h.agrees htrusted hxml
  refine ⟨hagrees.memory, fun label disabled message v hr => ?_⟩
  obtain ⟨hsup, hfile⟩ := (hagrees.request hr).2 message rfl
  exact ⟨by rw [hsup], hfile⟩

/-! ### A reader

Enough of an XML parser for the texts of the database. -/

/-- The entries at the beginning of a text. -/
def readEntries : Nat → Bytes → List (Label × Bool)
  | 0, _ => []
  | n + 1, s =>
      if ascii "<key>" <+: s then
        let label := (s.drop 5).takeWhile (· ≠ 60)
        let rest := s.drop (5 + label.length + 6)
        if ascii "<true/>" <+: rest then (label, true) :: readEntries n (rest.drop 7)
        else (label, false) :: readEntries n (rest.drop 8)
      else []

def readXml (s : Bytes) : Option Doc :=
  if plistHead ++ ascii "<dict>" <+: s then
    some (databaseDoc (readEntries s.length (s.drop (plistHead ++ ascii "<dict>").length)))
  else none

theorem takeWhile_label {l rest : Bytes} (h : ∀ c ∈ l, c ≠ 60) :
    (l ++ 60 :: rest).takeWhile (· ≠ 60) = l := by
  rw [List.takeWhile_append_of_pos fun c hc => by simpa using h c hc]
  simp

theorem readEntries_text {entries : List (Label × Bool)} {rest : Bytes} {n : Nat}
    (hlabels : Labelled entries) (hrest : ¬ ascii "<key>" <+: rest) (hn : entries.length ≤ n) :
    readEntries n (entries.flatMap entryText ++ rest) = entries := by
  induction entries generalizing n with
  | nil =>
      cases n with
      | zero => rfl
      | succ n => simp [readEntries, hrest]
  | cons entry entries ih =>
      obtain ⟨l, b⟩ := entry
      cases n with
      | zero => simp at hn
      | succ n =>
          have hl : ∀ c ∈ l, c ≠ 60 := fun c hc =>
            (identifier_range (hlabels (l, b) (.head _)) c hc).2.1
          have ih' := ih (fun e he => hlabels e (.tail _ he)) (Nat.le_of_succ_le_succ hn)
          -- the text from the label on
          have htext : ((l, b) :: entries).flatMap entryText ++ rest =
              ascii "<key>" ++ (l ++ 60 :: (ascii "/key>" ++ (booleanText b ++
                (entries.flatMap entryText ++ rest)))) := by
            have hclose : ascii "</key>" = 60 :: ascii "/key>" := by decide
            simp [entryText, hclose]
          have hafter : ∀ s : Bytes, (ascii "<key>" ++ (l ++ 60 :: (ascii "/key>" ++ s))).drop
              (5 + l.length + 6) = s := by
            intro s
            have hlength : (ascii "<key>" ++ (l ++ 60 :: ascii "/key>")).length = 5 + l.length + 6 := by
              simp [ascii]
              omega
            rw [← hlength]
            have hassoc : ascii "<key>" ++ (l ++ 60 :: (ascii "/key>" ++ s)) =
                (ascii "<key>" ++ (l ++ 60 :: ascii "/key>")) ++ s := by simp
            rw [hassoc, List.drop_left]
          have hdrop : ∀ s : Bytes, (ascii "<key>" ++ s).drop 5 = s := fun s => by simp [ascii]
          rw [htext, readEntries, if_pos (List.prefix_append _ _), hdrop, takeWhile_label hl]
          dsimp only
          rw [hafter]
          cases b with
          | true =>
              have hskip : ∀ s : Bytes, (ascii "<true/>" ++ s).drop 7 = s := fun s => by simp [ascii]
              rw [booleanText, if_pos rfl, if_pos (List.prefix_append _ _), hskip, ih']
          | false =>
              have hskip : ∀ s : Bytes, (ascii "<false/>" ++ s).drop 8 = s := fun s => by simp [ascii]
              have hnot : ∀ s : Bytes, ¬ ascii "<true/>" <+: ascii "<false/>" ++ s := by
                intro s
                simp [ascii]
              have hfalse : booleanText false = ascii "<false/>" := rfl
              rw [hfalse, if_neg (hnot _), hskip, ih']

theorem readXml_databaseText {entries : List (Label × Bool)} (h : Labelled entries) :
    readXml (databaseText entries) = some (databaseDoc entries) := by
  have htext : databaseText entries = (plistHead ++ ascii "<dict>") ++
      (entries.flatMap entryText ++ (ascii "</dict>" ++ ascii "</plist>")) := by
    simp [databaseText, dictText]
  have hend : ¬ ascii "<key>" <+: ascii "</dict>" ++ ascii "</plist>" := by simp [ascii]
  have hlength : entries.length ≤ (databaseText entries).length := by
    have hflat : entries.length ≤ (entries.flatMap entryText).length := by
      clear h htext hend
      induction entries with
      | nil => simp
      | cons entry entries ih =>
          rw [List.flatMap_cons, List.length_append, List.length_cons]
          have hpos : 0 < (entryText entry).length := by simp [entryText, ascii]
          omega
    rw [htext]
    simp only [List.length_append]
    omega
  rw [readXml, if_pos (htext ▸ List.prefix_append _ _)]
  nth_rewrite 2 [htext]
  rw [List.drop_left, readEntries_text h hend hlength]

/-! ### A session

On a disk on which every call succeeds that can. -/

def diskEnv : Env := { demoEnv with overrides := ascii "/o", xmlReadMemory := readXml }

theorem readsXml_diskEnv : ReadsXml diskEnv := fun _ h => readXml_databaseText h

def databasePlace : Place := (0, ascii "o")

def temporaryPlace : Place := (0, ascii "o.new")

def diskAnswer (o : Op) (w : World) : o.Ans × World :=
  match o with
  | .act l a => ((), w.act diskEnv l a w.clock [])
  | .unlink path =>
      match diskEnv.place path with
      | some q => if w.files q = none then (.error .ENOENT, w) else (.ok (), w.put q none)
      | none => (.error .ENOENT, w)
  | .create path =>
      match diskEnv.place path with
      | some q => if w.files q = none then (.ok (), w.put q (some (.regular [] true)))
          else (.error .EEXIST, w)
      | none => (.error .EEXIST, w)
  | .write path data =>
      match diskEnv.place path with
      | some q =>
          match w.files q with
          | some (.regular _ trusted) => (.ok (), w.put q (some (.regular data trusted)))
          | _ => (.error (.other 5), w)
      | none => (.error (.other 5), w)
  | .rename old new =>
      match diskEnv.place old, diskEnv.place new with
      | some q, some q' => if w.files q = none then (.error .ENOENT, w)
          else (.ok (), (w.put q' (w.files q)).put q none)
      | _, _ => (.error .ENOENT, w)
  | .lstat path =>
      match w.fileAt diskEnv path with
      | some node => (.ok node.kind, w)
      | none => (.error .ENOENT, w)
  | .openRead path =>
      match w.fileAt diskEnv path with
      | some (.regular data trusted) => (.ok ⟨true, trusted, data⟩, w)
      | _ => (.error .ENOENT, w)
  | o => demoAnswer o w

theorem sem_diskAnswer (o : Op) (w : World) :
    faultless diskEnv o w (diskAnswer o w).1 (diskAnswer o w).2 := by
  have h := sem_demoAnswer o w
  cases o with
  | act l a => exact ⟨⟨⟨w.clock, [], le_rfl, rfl⟩, trivial⟩, fun _ => trivial⟩
  | unlink path =>
      refine ⟨⟨?_, trivial⟩, fun _ => trivial⟩
      simp only [diskAnswer]
      split
      · next q hq =>
          split
          · exact .inl ⟨rfl, fun h => by cases h⟩
          · next hf => exact .inr ⟨q, hq, hf, rfl, rfl⟩
      · exact .inl ⟨rfl, fun h => by cases h⟩
  | create path =>
      refine ⟨⟨?_, trivial⟩, fun _ => trivial⟩
      simp only [diskAnswer]
      split
      · next q hq =>
          split
          · next hf => exact .inr ⟨q, hq, hf, rfl, rfl⟩
          · exact .inl ⟨rfl, _, rfl⟩
      · exact .inl ⟨rfl, _, rfl⟩
  | write path data =>
      refine ⟨⟨?_, trivial⟩, fun _ => trivial⟩
      simp only [diskAnswer]
      split
      · next q hq =>
          split
          · next before trusted hf =>
              exact .inr ⟨q, data, trusted, hq, ⟨before, hf⟩, fun _ => rfl, rfl⟩
          · exact .inl ⟨rfl, _, rfl⟩
      · exact .inl ⟨rfl, _, rfl⟩
  | rename old new =>
      refine ⟨⟨?_, trivial⟩, fun _ => trivial⟩
      simp only [diskAnswer]
      split
      · next q q' hq hq' =>
          split
          · exact .inl ⟨rfl, _, rfl⟩
          · next hf => exact .inr ⟨q, q', hq, hq', hf, rfl, rfl⟩
      · exact .inl ⟨rfl, _, rfl⟩
  | lstat path =>
      refine ⟨⟨⟨?_, ?_⟩, fun _ hf => ?_⟩, fun _ => trivial⟩
      · simp only [diskAnswer]
        split <;> rfl
      · cases hf : w.fileAt diskEnv path with
        | none => exact fun i h => by simp [diskAnswer, hf] at h
        | some node => exact .inl (by simp [diskAnswer, hf])
      · exact ⟨.ENOENT, by simp [diskAnswer, hf]⟩
  | openRead path =>
      refine ⟨⟨⟨?_, ?_⟩, fun _ hf => ?_⟩, ?_⟩
      · simp only [diskAnswer]
        split <;> rfl
      · cases hf : w.fileAt diskEnv path with
        | none => trivial
        | some node =>
            cases node with
            | socket i => exact ⟨.ENOENT, by simp [diskAnswer, hf]⟩
            | regular data trusted => exact .inl (by simp [diskAnswer, hf])
      · exact ⟨.ENOENT, by simp [diskAnswer, hf]⟩
      · rintro ⟨data, trusted, hf⟩ rfl
        exact ⟨_, by simp [diskAnswer, hf]; rfl⟩
  | readAll file => exact ⟨⟨h, trivial⟩, fun _ => ⟨_, rfl⟩⟩
  | fstat => exact ⟨⟨h, trivial⟩, fun _ => rfl⟩
  | bind path => exact ⟨⟨.inl ⟨rfl, _, rfl⟩, trivial⟩, fun _ => trivial⟩
  | _ => exact ⟨⟨h, trivial⟩, fun _ => trivial⟩

/-- The calls as `diskAnswer` answers them. -/
def onDisk : Sem calls World := fun o w r v => r = (diskAnswer o w).1 ∧ v = (diskAnswer o w).2

/-- Every program can be run on the disk. -/
theorem disk_runs {α : Type} (p : Prog calls α) (w : World) :
    ∃ a v, Prog.Reach onDisk p w (.ret a) v ∧ Prog.Reach (faultless diskEnv) p w (.ret a) v ∧
      Prog.Reach (alone diskEnv) p w (.ret a) v :=
  ⟨(p.exec diskAnswer w).1, (p.exec diskAnswer w).2,
    Prog.reach_exec (fun _ _ => ⟨rfl, rfl⟩) p w, Prog.reach_exec sem_diskAnswer p w,
    Prog.reach_exec (fun o w => (sem_diskAnswer o w).1) p w⟩

theorem onDisk_ask {o : Op} {α : Type} {f : o.Ans → M α} {Q : α → Unit → World → Prop}
    {D : Bytes → Unit → World → Prop} {r : o.Ans} (ho : diskAnswer o w = (r, v))
    (h : wp onDisk (fun _ _ => True) (f r) Q D g v) :
    wp onDisk (fun _ _ => True) (ask o >>= f) Q D g w := by
  refine wp_bind.2 ⟨trivial, fun r' v' hr => ?_⟩
  obtain ⟨hr', hv'⟩ := hr
  rw [ho] at hr' hv'
  obtain rfl : r' = r := hr'
  obtain rfl : v' = v := hv'
  exact h

theorem onDisk_lift {α β : Type} {x : Result α} {a : α} {f : α → M β}
    {Q : β → Unit → World → Prop} {D : Bytes → Unit → World → Prop} (hx : x = .ok a)
    (h : wp onDisk (fun _ _ => True) (f a) Q D g w) :
    wp onDisk (fun _ _ => True) (lift x >>= f) Q D g w := by
  subst hx
  exact wp_bind.2 h

/-- A call that must succeed, and does. -/
theorem onDisk_checked {o : Op} {operation : Bytes} {k : o.Ans → Except Errno Unit} {m : M Unit}
    {Q : Unit → Unit → World → Prop} {D : Bytes → Unit → World → Prop} {r : o.Ans}
    (ho : diskAnswer o w = (r, v)) (hr : k r = .ok ())
    (h : wp onDisk (fun _ _ => True) m Q D g v) :
    wp onDisk (fun _ _ => True)
      (ask o >>= fun r => orThrow diskEnv operation (k r) >>= fun _ => m) Q D g w := by
  refine onDisk_ask ho ?_
  rw [hr]
  exact wp_bind.2 h

theorem place_database : diskEnv.place diskEnv.overrides = some databasePlace := by decide

theorem place_new : diskEnv.place (diskEnv.overrides ++ ascii ".new") = some temporaryPlace := by
  decide

/-- The request can be carried out. -/
structure Writable (w : World) (l : Label) : Prop where
  going : w.sup.shuttingDown = false
  temporary : w.files temporaryPlace = none
  valid : validIdentifier l = true
  strip : stripSystem l = l
  labels : Labelled (w.sup.overrides.insert l true).toList
  size : (databaseText (w.sup.overrides.insert l true).toList).length ≤ maxMessage

theorem onDisk_setOverride {l : Label} (h : Writable w l) :
    wp onDisk (fun _ _ => True) (setOverride diskEnv l true)
      (fun _ _ v => v.sup.shuttingDown = false ∧ v.files temporaryPlace = none)
      (fun _ _ _ => False) g w := by
  have hwrite : writePlist (overridesValue (w.sup.overrides.insert l true)) =
      .ok (databaseText (w.sup.overrides.insert l true).toList) := by
    rw [writePlist_overrides h.labels, if_neg (not_lt.2 h.size)]
  have hlabel : throwIf ((!validIdentifier l) = true) (ascii "invalid label") = .ok () := by
    rw [h.valid]
    rfl
  have hnew : diskEnv.place (diskEnv.overrides ++ ascii ".new") = some temporaryPlace := place_new
  unfold setOverride
  refine onDisk_lift (a := ()) rfl ?_
  rw [h.strip]
  refine onDisk_lift hlabel (onDisk_ask (o := .look) rfl (onDisk_lift hwrite ?_))
  refine wp_bind.2 (show wp onDisk _ (pure () : M Unit) _ _ _ _ from ?_)
  -- the temporary file is made, filled and renamed
  have hunlink : diskAnswer (.unlink (diskEnv.overrides ++ ascii ".new")) w =
      (.error .ENOENT, w) := by
    simp only [diskAnswer, hnew, h.temporary, if_true]
  have hcreate : diskAnswer (.create (diskEnv.overrides ++ ascii ".new")) w =
      (.ok (), w.put temporaryPlace (some (.regular [] true))) := by
    simp only [diskAnswer, hnew, h.temporary, if_true]
  refine onDisk_ask hunlink (onDisk_checked hcreate rfl (onDisk_checked (o := .fchmod) rfl rfl ?_))
  have hfill : ∀ data, diskAnswer (.write (diskEnv.overrides ++ ascii ".new") data)
      (w.put temporaryPlace (some (.regular [] true))) =
        (.ok (), (w.put temporaryPlace (some (.regular [] true))).put temporaryPlace
          (some (.regular data true))) := by
    intro data
    simp only [diskAnswer, hnew, World.put, Function.update_self]
  refine onDisk_checked (hfill _) rfl (onDisk_checked (o := .fsync) rfl rfl ?_)
  have hrename : ∀ u : World, u.files temporaryPlace ≠ none →
      diskAnswer (.rename (diskEnv.overrides ++ ascii ".new") diskEnv.overrides) u =
        (.ok (), (u.put databasePlace (u.files temporaryPlace)).put temporaryPlace none) := by
    intro u hu
    simp only [diskAnswer, hnew, place_database, if_neg hu]
  refine onDisk_checked (hrename _ (by simp [World.put])) rfl ⟨trivial, fun _ v hv => ?_⟩
  obtain rfl : v = _ := hv.2
  exact ⟨h.going, by simp [diskAnswer, demoAnswer, World.put]⟩

theorem onDisk_request {l : Label} (h : Writable w l) :
    wp onDisk (fun _ _ => True) (manage diskEnv (overrideCommand true) l)
      (fun _ _ v => v.sup.shuttingDown = false ∧ v.files temporaryPlace = none)
      (fun _ _ _ => False) g w := by
  have hne : l ≠ [] := by
    rintro rfl
    exact absurd h.valid (by decide)
  have hgoing : throwIf (w.sup.shuttingDown = true) (ascii "launchd is shutting down") = .ok () := by
    rw [h.going]
    rfl
  have hargument : throwIf (l = []) (ascii "command requires an argument") = .ok () := if_neg hne
  have hload : overrideCommand true ≠ ascii "load" := by decide
  have hdisable : overrideCommand true = ascii "disable" := rfl
  unfold manage
  refine onDisk_ask (o := .look) rfl (onDisk_lift hgoing (onDisk_lift hargument ?_))
  rw [if_neg hload, if_pos hdisable]
  refine wp_bind.2 ((onDisk_setOverride h).post (fun _ _ u hu => ?_) fun _ _ _ => id)
  exact onDisk_ask (o := .answer _ _) rfl hu

/-! ### Many labels -/

def letter (n : Nat) : UInt8 := UInt8.ofNat (97 + n % 26)

/-- Labels of three letters. -/
def nthLabel (n : Nat) : Label := [letter (n / 676), letter (n / 26), letter n]

theorem letter_range (n : Nat) : 97 ≤ letter n ∧ letter n ≤ 122 := by
  have h : ∀ y < 26, 97 ≤ UInt8.ofNat (97 + y) ∧ UInt8.ofNat (97 + y) ≤ 122 := by decide
  exact h (n % 26) (Nat.mod_lt _ (by omega))

theorem letter_inj {a b : Nat} (h : letter a = letter b) : a % 26 = b % 26 := by
  have h' := congrArg UInt8.toNat h
  simp only [letter, UInt8.toNat_ofNat'] at h'
  have ha := Nat.mod_lt a (show 26 > 0 by omega)
  have hb := Nat.mod_lt b (show 26 > 0 by omega)
  omega

theorem nthLabel_inj {a b : Nat} (ha : a < 17576) (hb : b < 17576)
    (h : nthLabel a = nthLabel b) : a = b := by
  simp only [nthLabel, List.cons.injEq, and_true] at h
  have h1 := letter_inj h.1
  have h2 := letter_inj h.2.1
  have h3 := letter_inj h.2.2
  omega

theorem nthLabel_valid (n : Nat) : validIdentifier (nthLabel n) = true := by
  simp [validIdentifier, nthLabel, letter_range]

theorem nthLabel_strip (n : Nat) : stripSystem (nthLabel n) = nthLabel n := by
  refine if_neg fun h => ?_
  have hlength := h.length_le
  simp [nthLabel, ascii] at hlength

theorem length_databaseText {entries : List (Label × Bool)}
    (h : ∀ entry ∈ entries, entry.1.length = 3 ∧ entry.2 = true) :
    (databaseText entries).length ≤ 100 + 21 * entries.length := by
  have hflat : (entries.flatMap entryText).length = 21 * entries.length := by
    induction entries with
    | nil => rfl
    | cons entry entries ih =>
        obtain ⟨hl, hb⟩ := h entry (.head _)
        rw [List.flatMap_cons, List.length_append, ih fun e he => h e (.tail _ he)]
        simp [entryText, booleanText, hl, hb, ascii]
        omega
  simp only [databaseText, dictText, List.length_append, hflat]
  simp [plistHead, ascii]
  omega

/-- A session in which the first labels have been disabled. -/
structure Filled (C : World → Prop) (n : Nat) (w : World) (said : Label → Option Bool) : Prop where
  session : Session diskEnv C (faultless diskEnv) w said
  agrees : Agrees diskEnv w said
  going : w.sup.shuttingDown = false
  temporary : w.files temporaryPlace = none
  size : w.sup.overrides.size = n
  entries : ∀ entry ∈ w.sup.overrides.toList, entry.2 = true ∧ ∃ i < n, entry.1 = nthLabel i
  said : ∀ i < n, said (nthLabel i) = some true

theorem Filled.start (C : World → Prop) : Filled C 0 {} fun _ => none where
  session := .start {} rfl rfl
  agrees := ⟨fun l => by simp, .inr ⟨rfl, rfl⟩⟩
  going := rfl
  temporary := rfl
  size := by simp
  entries := by simp
  said := by simp

theorem Filled.next {C : World → Prop} {n : Nat} {said : Label → Option Bool}
    (h : Filled C n w said) (hn : n < 16384) :
    ∃ v said', Filled C (n + 1) v said' := by
  have hnew : nthLabel n ∉ w.sup.overrides := by
    intro hm
    obtain ⟨b, hb⟩ := Option.isSome_iff_exists.1 (Std.ExtTreeMap.mem_iff_isSome_getElem?.1 hm)
    obtain ⟨-, i, hi, heq⟩ := h.entries (nthLabel n, b)
      (Std.ExtTreeMap.mem_toList_iff_getElem?_eq_some.2 hb)
    have := nthLabel_inj (by omega) (by omega) heq
    omega
  have hentries : ∀ entry ∈ (w.sup.overrides.insert (nthLabel n) true).toList,
      entry.2 = true ∧ ∃ i < n + 1, entry.1 = nthLabel i := by
    intro entry hentry
    rw [Std.ExtTreeMap.mem_toList_iff_getElem?_eq_some, Std.ExtTreeMap.getElem?_insert] at hentry
    split at hentry
    · next heq =>
        have heq' : nthLabel n = entry.1 := by simpa using heq
        exact ⟨(Option.some.inj hentry).symm, n, by omega, heq'.symm⟩
    · obtain ⟨hb, i, hi, heq⟩ := h.entries entry
        (Std.ExtTreeMap.mem_toList_iff_getElem?_eq_some.2 hentry)
      exact ⟨hb, i, by omega, heq⟩
  have hsize : (w.sup.overrides.insert (nthLabel n) true).size = n + 1 := by
    rw [Std.ExtTreeMap.size_insert, if_neg (by simpa using hnew), h.size]
  have hwritable : Writable w (nthLabel n) := by
    refine ⟨h.going, h.temporary, nthLabel_valid n, nthLabel_strip n,
      h.agrees.labels.insert (nthLabel_valid n), ?_⟩
    refine (length_databaseText fun entry he => ?_).trans ?_
    · obtain ⟨hb, i, -, heq⟩ := hentries entry he
      exact ⟨by rw [heq]; rfl, hb⟩
    · rw [Std.ExtTreeMap.length_toList, hsize, maxMessage]
      omega
  -- the run of the request
  obtain ⟨⟨r, g'⟩, v, hrun, -, halone⟩ :=
    disk_runs (manage diskEnv (overrideCommand true) (nthLabel n) ()) w
  have hdisk := Prog.Spec.reach (onDisk_request (g := ()) hwritable) hrun
  have hspec := Prog.Spec.reach (handles_request (g := ()) h.agrees.labels) halone
  cases r with
  | error message => exact hdisk.elim
  | ok value =>
      obtain ⟨hgoing, htemporary⟩ : v.sup.shuttingDown = false ∧ _ := hdisk
      obtain ⟨hsup, -⟩ : _ ∧ Recorded diskEnv v := hspec
      rw [nthLabel_strip] at hsup
      have hoverrides : v.sup.overrides = w.sup.overrides.insert (nthLabel n) true := by rw [hsup]
      refine ⟨v, _, .request _ true (.ok value) h.session halone, (h.agrees.request halone).1, hgoing,
        htemporary, by rw [hoverrides, hsize], by rw [hoverrides]; exact hentries, fun i hi => ?_⟩
      by_cases heq : i = n
      · subst heq
        simp [answered, nthLabel_strip]
      · have hne : nthLabel i ≠ nthLabel n := fun h' =>
          heq (nthLabel_inj (by omega) (by omega) h')
        simp [answered, nthLabel_strip, Function.update_of_ne hne, h.said i (by omega)]

theorem exists_filled (C : World → Prop) (n : Nat) (hn : n ≤ 16384) : ∃ w said, Filled C n w said := by
  induction n with
  | zero => exact ⟨_, _, .start C⟩
  | succ n ih =>
      obtain ⟨w, said, h⟩ := ih (by omega)
      exact h.next (by omega)

/-- launchd is started again. -/
theorem Filled.restart {C : World → Prop} {n : Nat} {said : Label → Option Bool}
    (h : Filled C (n + 1) w said) (hC : C w) :
    ∃ v, Session diskEnv C (faultless diskEnv) v said ∧
      v.sup.overrides = readAs w.sup.overrides := by
  obtain ⟨⟨r, g'⟩, v, -, hrun, -⟩ := disk_runs (readOverrides diskEnv ()) w.restarted
  obtain hrec | ⟨hempty, -⟩ := h.agrees.file
  · have hspec := Prog.Spec.reach (restart_recorded (w := w.restarted) (g := ()) hrec.labels hrec.size
      hrec.file (.inl rfl) (readsXml_diskEnv _ hrec.labels)) hrun
    cases r with
    | error message => exact hspec.elim
    | ok x => exact ⟨v, .restart h.session hC hrun, hspec.1⟩
  · have hsize := h.size
    rw [hempty] at hsize
    simp at hsize

/-- One label, a restart, and the override is still there. -/
theorem overrides_durable_one :
    ∃ w said, Session diskEnv Few (faultless diskEnv) w said ∧ said (nthLabel 0) = some true ∧
      w.sup.overrides[nthLabel 0]? = some true := by
  obtain ⟨w, said, h⟩ := exists_filled Few 1 (by omega)
  have hfew : Few w := by
    rw [Few, h.size]
    omega
  obtain ⟨v, hv, -⟩ := h.restart hfew
  have hsaid := h.said 0 (by omega)
  refine ⟨v, said, hv, hsaid, ?_⟩
  rw [← hsaid]
  exact (overrides_durable diskEnv (.inl rfl) readsXml_diskEnv v said hv).1 (nthLabel 0)

/-- After 16384 requests and a restart, in which no call fails, nothing is in force
any more. -/
theorem too_many_overrides_forgotten :
    ∃ w said, Session diskEnv (fun _ => True) (faultless diskEnv) w said ∧
      said (nthLabel 0) = some true ∧ w.sup.overrides[nthLabel 0]? = none := by
  obtain ⟨w, said, h⟩ := exists_filled (fun _ => True) 16384 le_rfl
  obtain ⟨v, hv, hoverrides⟩ := Filled.restart (n := 16383) h trivial
  refine ⟨v, said, hv, h.said 0 (by omega), ?_⟩
  have hmany : 16384 ≤ w.sup.overrides.toList.length := by
    rw [Std.ExtTreeMap.length_toList, h.size]
  rw [hoverrides, readAs, if_pos hmany]
  simp

end MiniDarwin.Launchd
