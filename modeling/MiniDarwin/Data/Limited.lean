import Mathlib.Tactic

/-!
Loops that append to a list, in any monad, up to a limit on its length.

A loop appends all that it has to append or fails at the limit, and two such
loops, one after the other, are as one.
-/

namespace MiniDarwin.Data

variable {m : Type → Type} [Monad m] {α α' β : Type} {limit : Nat} {fail : m (List β)}
  {step : List β → α → m (List β)} {step' : List β → α' → m (List β)} {f : α → Option β} {f' : α' → Option β}
  {list : List α} {list' : List α'} {out : List β}

/-- A step appends what `f` says, if there is room for it. -/
structure Limited (limit : Nat) (fail : m (List β)) (step : List β → α → m (List β)) (f : α → Option β) : Prop where
  skip : ∀ out x, f x = none → step out x = pure out
  append : ∀ out x y, f x = some y → out.length < limit → step out x = pure (out ++ [y])
  full : ∀ out x y, f x = some y → limit ≤ out.length → step out x = fail

/-- A failure ends the computation, and a result is passed on. -/
structure Ends (fail : m (List β)) : Prop where
  pure_bind : ∀ (l : List β) (k : List β → m (List β)), (pure l >>= k) = k l
  fail_bind : ∀ k : List β → m (List β), (fail >>= k) = fail

theorem Limited.foldlM (h : Limited limit fail step f) (hfail : Ends fail) :
    list.foldlM step out =
      if list.filterMap f = [] ∨ out.length + (list.filterMap f).length ≤ limit
      then pure (out ++ list.filterMap f) else fail := by
  induction list generalizing out with
  | nil => simp
  | cons x list ih =>
      rw [List.foldlM_cons]
      cases hx : f x with
      | none =>
          rw [List.filterMap_cons_none hx, h.skip out x hx, hfail.pure_bind]
          exact ih
      | some y =>
          rw [List.filterMap_cons_some hx]
          by_cases hroom : out.length < limit
          · rw [h.append out x y hx hroom, hfail.pure_bind, ih, List.append_assoc, List.singleton_append,
              List.length_append, List.length_singleton, List.length_cons]
            refine if_congr ?_ rfl rfl
            simp only [reduceCtorEq, false_or]
            constructor
            · rintro (hnil | hle)
              · rw [hnil, List.length_nil]
                omega
              · omega
            · intro hle
              exact .inr (by omega)
          · have hno : ¬ (y :: list.filterMap f = [] ∨ out.length + (y :: list.filterMap f).length ≤ limit) := by
              rw [List.length_cons]
              simp only [reduceCtorEq, false_or]
              omega
            rw [h.full out x y hx (by omega), hfail.fail_bind, if_neg hno]

theorem Limited.foldlM_foldlM (h : Limited limit fail step f) (h' : Limited limit fail step' f') (hfail : Ends fail) :
    (list.foldlM step out >>= fun out => list'.foldlM step' out) =
      if list.filterMap f ++ list'.filterMap f' = [] ∨
          out.length + (list.filterMap f ++ list'.filterMap f').length ≤ limit
      then pure (out ++ (list.filterMap f ++ list'.filterMap f')) else fail := by
  rw [h.foldlM hfail]
  split
  · next hfirst =>
      rw [hfail.pure_bind, h'.foldlM hfail, List.append_assoc]
      refine if_congr ?_ rfl rfl
      rw [List.append_eq_nil_iff, List.length_append, List.length_append]
      constructor
      · rintro (hnil | hle)
        · rw [hnil]
          simpa using hfirst
        · exact .inr (by omega)
      · rintro (⟨-, hnil⟩ | hle)
        · exact .inl hnil
        · exact .inr (by omega)
  · next hfirst =>
      rw [not_or] at hfirst
      rw [hfail.fail_bind, if_neg]
      rw [List.append_eq_nil_iff, List.length_append]
      rintro (⟨hnil, -⟩ | hle)
      · exact hfirst.1 hnil
      · exact hfirst.2 (by omega)

end MiniDarwin.Data
