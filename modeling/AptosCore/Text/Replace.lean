import Mathlib

/-!
# Replacing every occurrence of a pattern

`str::replace(from, to)` on a sequence: the occurrences of `from` are found from the left, none
overlapping the previous one, and each becomes `to`; text put in is never scanned again. The
empty pattern matches at every boundary. For valid UTF-8 a pattern only matches at character
boundaries, so the byte and the character readings agree.

A replacement touches nothing but the occurrences: a text without any is left as it is
(`replaceAll_eq_self`), and a text with exactly one changes only there (`replaceAll_unique`).
-/

namespace AptosCore.Text

variable {α : Type} [DecidableEq α]

/-- The scan of `replaceAll` for a nonempty pattern: `skip` elements of the last occurrence
are still to be dropped. -/
def replaceFrom (pattern replacement : List α) : Nat → List α → List α
  | _, [] => []
  | skip + 1, _ :: rest => replaceFrom pattern replacement skip rest
  | 0, c :: rest =>
    if pattern.isPrefixOf (c :: rest) then
      replacement ++ replaceFrom pattern replacement (pattern.length - 1) rest
    else c :: replaceFrom pattern replacement 0 rest

/-- `str::replace`. -/
def replaceAll (text pattern replacement : List α) : List α :=
  if pattern = [] then replacement ++ text.flatMap (· :: replacement)
  else replaceFrom pattern replacement 0 text

section Scan

variable {pattern replacement : List α}

@[simp] theorem replaceFrom_nil (skip : Nat) : replaceFrom pattern replacement skip [] = [] := by
  cases skip <;> rfl

@[simp] theorem replaceFrom_succ_cons (skip : Nat) (c : α) (rest : List α) :
    replaceFrom pattern replacement (skip + 1) (c :: rest) =
      replaceFrom pattern replacement skip rest := rfl

theorem replaceFrom_zero_cons (c : α) (rest : List α) :
    replaceFrom pattern replacement 0 (c :: rest) =
      if pattern.isPrefixOf (c :: rest) then
        replacement ++ replaceFrom pattern replacement (pattern.length - 1) rest
      else c :: replaceFrom pattern replacement 0 rest := rfl

theorem replaceFrom_skip (front back : List α) :
    replaceFrom pattern replacement front.length (front ++ back) =
      replaceFrom pattern replacement 0 back := by
  induction front with
  | nil => rfl
  | cons c front ih => simpa using ih

theorem replaceFrom_cons_of_not_prefix {c : α} {rest : List α}
    (hmatch : ¬ pattern <+: c :: rest) :
    replaceFrom pattern replacement 0 (c :: rest) =
      c :: replaceFrom pattern replacement 0 rest := by
  rw [← List.isPrefixOf_iff_prefix] at hmatch
  simp [replaceFrom_zero_cons, hmatch]

theorem replaceFrom_pattern_append (hne : pattern ≠ []) (rest : List α) :
    replaceFrom pattern replacement 0 (pattern ++ rest) =
      replacement ++ replaceFrom pattern replacement 0 rest := by
  obtain ⟨c, tail, rfl⟩ := List.exists_cons_of_ne_nil hne
  have hmatch : (c :: tail).isPrefixOf (c :: tail ++ rest) = true :=
    List.isPrefixOf_iff_prefix.mpr (List.prefix_append _ _)
  rw [List.cons_append, replaceFrom_zero_cons, ← List.cons_append, hmatch, if_pos rfl,
    List.length_cons, Nat.add_sub_cancel, replaceFrom_skip]

theorem replaceFrom_append_of_no_match (front back : List α)
    (hnone : ∀ before after, front = before ++ after → after ≠ [] →
      ¬ pattern <+: after ++ back) :
    replaceFrom pattern replacement 0 (front ++ back) =
      front ++ replaceFrom pattern replacement 0 back := by
  induction front with
  | nil => rfl
  | cons c front ih =>
    have hhere : ¬ pattern <+: c :: (front ++ back) := hnone [] (c :: front) rfl (by simp)
    rw [List.cons_append, replaceFrom_cons_of_not_prefix hhere, ih]
    · rfl
    · intro before after hsplit hafter
      exact hnone (c :: before) after (by rw [hsplit, List.cons_append]) hafter

end Scan

variable {text pattern replacement : List α}

/-- A text in which the pattern does not occur is left as it is. -/
theorem replaceAll_eq_self (hne : pattern ≠ []) (habsent : ¬ pattern <:+: text) :
    replaceAll text pattern replacement = text := by
  have hnone : ∀ before after, text = before ++ after → after ≠ [] →
      ¬ pattern <+: after ++ [] := by
    intro before after hsplit _ hmatch
    apply habsent
    obtain ⟨rest, hrest⟩ := hmatch
    exact ⟨before, rest, by rw [hsplit, List.append_assoc, hrest, List.append_nil]⟩
  have hkeep : replaceFrom pattern replacement 0 (text ++ []) =
      text ++ replaceFrom pattern replacement 0 [] :=
    replaceFrom_append_of_no_match text [] hnone
  rw [List.append_nil, replaceFrom_nil, List.append_nil] at hkeep
  rw [replaceAll, if_neg hne, hkeep]

/-- A text holding the pattern exactly once, after a part where no occurrence starts,
changes at that occurrence only. -/
theorem replaceAll_unique (front back : List α) (hne : pattern ≠ [])
    (hfront : ∀ before after, front = before ++ after → after ≠ [] →
      ¬ pattern <+: after ++ pattern ++ back)
    (hback : ¬ pattern <:+: back) :
    replaceAll (front ++ pattern ++ back) pattern replacement =
      front ++ replacement ++ back := by
  have hnone : ∀ before after, front = before ++ after → after ≠ [] →
      ¬ pattern <+: after ++ (pattern ++ back) := by
    intro before after hsplit hafter
    rw [← List.append_assoc]
    exact hfront before after hsplit hafter
  have hrest : replaceFrom pattern replacement 0 back = back := by
    have hself : replaceAll back pattern replacement = back := replaceAll_eq_self hne hback
    rwa [replaceAll, if_neg hne] at hself
  rw [replaceAll, if_neg hne, List.append_assoc, replaceFrom_append_of_no_match _ _ hnone,
    replaceFrom_pattern_append hne, hrest, List.append_assoc]

/-- A text in which the pattern occurs only where it starts after `front` changes there only. -/
theorem replaceAll_of_occurs_once (front back : List α) (hne : pattern ≠ [])
    (honce : ∀ i < (front ++ pattern ++ back).length,
      pattern <+: (front ++ pattern ++ back).drop i → i = front.length) :
    replaceAll (front ++ pattern ++ back) pattern replacement =
      front ++ replacement ++ back := by
  have hlen : 0 < pattern.length := List.length_pos_iff.mpr hne
  refine replaceAll_unique front back hne (fun before after hsplit hafter hmatch ↦ ?_) ?_
  · have hdrop : (front ++ pattern ++ back).drop before.length = after ++ pattern ++ back := by
      rw [hsplit, List.append_assoc, List.append_assoc, List.drop_left, List.append_assoc]
    have hafter_len : 0 < after.length := List.length_pos_iff.mpr hafter
    have hat := honce before.length
      (by simp only [hsplit, List.length_append]; omega) (hdrop ▸ hmatch)
    rw [hsplit, List.length_append] at hat
    omega
  · rintro ⟨x, y, rfl⟩
    have hdrop : (front ++ pattern ++ (x ++ pattern ++ y)).drop
        (front.length + pattern.length + x.length) = pattern ++ y := by
      have hsplit : front ++ pattern ++ (x ++ pattern ++ y) =
          (front ++ pattern ++ x) ++ (pattern ++ y) := by
        simp only [List.append_assoc]
      rw [hsplit, List.drop_left' (by simp only [List.length_append])]
    have hat := honce (front.length + pattern.length + x.length)
      (by simp only [List.length_append]; omega) (hdrop ▸ List.prefix_append pattern y)
    omega

end AptosCore.Text
