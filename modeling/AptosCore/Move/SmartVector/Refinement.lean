import AptosCore.Move.SmartVector
import AptosCore.Move.BigVector.Refinement

/-!
# `smart_vector` refines `std::vector`, but for `index_of` of absent values

On a valid smart vector (`SmartVector.Valid`) every operation acts on the elements, the inline
vector followed by the big vector's, as the `std::vector` operation of the same name does, and
leaves a valid smart vector. An operation at an index of the inline part acts on it alone, one at
an index of the big part goes to the big vector (`big_vector` refines `std::vector`), which is
destroyed once empty. `swap_remove` of an inline element first moves the last element of the big
vector inline; `swap` across the two parts swap-removes each element and pushes it onto the
other part; `reverse` pops as many elements as are inline, reverses the big vector, and pushes the
old inline elements back; `append` follows the same two loops as `big_vector::append`.

A run of calls therefore answers as on one `std::vector` as long as `index_of` is never asked
for a value the vector does not hold (`Valid.run_perform_eq_vector_run_of_answerable`); there
the smart vector answers otherwise (`Valid.indexOf_absent_ne`).
-/

namespace AptosCore.Move

open Collections Transition

namespace SmartVector

variable {α : Type}

theorem toVector_eq (v : SmartVector α) :
    v.toVector = v.inlineVec ++ (v.bigVec.map BigVector.toVector).getD [] := rfl

theorem length_toVector_of_bigVec_eq_none {v : SmartVector α} (hbig : v.bigVec = none) :
    v.toVector.length = v.inlineVec.length := by
  simp [toVector, hbig]

namespace Valid
variable {v : SmartVector α} (hv : v.Valid)
include hv

/-- `remove` acts on the elements as the vector's does and keeps the smart vector valid. -/
theorem remove_spec (i : Nat) :
    (v.remove i).map (fun removed ↦ (removed.1, removed.2.toVector)) =
        vector.remove v.toVector i ∧
      ∀ val w, v.remove i = some (val, w) → w.Valid := by
  by_cases hi : i < v.toVector.length
  swap
  · have hnone : v.remove i = none := if_neg (by rwa [hv.length_eq])
    rw [hnone, vector.remove_of_le (Nat.le_of_not_lt hi)]
    exact ⟨rfl, by simp⟩
  have hlt : i < v.length := hv.length_eq ▸ hi
  by_cases hinline : i < v.inlineVec.length
  · have hremove : v.remove i = some (v.inlineVec[i], { v with inlineVec := v.inlineVec.eraseIdx i }) := by
      unfold remove
      simp only [if_pos hlt, if_pos hinline, vector.remove_of_lt hinline, Option.map_some]
    rw [hremove, toVector_eq, vector.remove_append_left hinline, vector.remove_of_lt hinline]
    refine ⟨rfl, ?_⟩
    rintro val w hw
    obtain ⟨-, rfl⟩ := Prod.mk.inj (Option.some.inj hw)
    exact hv.of_config_eq (fun big hmem ↦ ⟨hv.big_valid big hmem, hv.big_ne_nil big hmem⟩) rfl rfl
  · cases hbig : v.bigVec with
    | none =>
      rw [length_toVector_of_bigVec_eq_none hbig] at hi
      exact absurd hi hinline
    | some big =>
      have hbigValid : big.Valid := hv.big_valid big hbig
      have hvec : v.toVector = v.inlineVec ++ big.toVector := by simp [toVector, hbig]
      obtain ⟨hmap, hkeep⟩ := hbigValid.remove_spec (i - v.inlineVec.length)
      have hin : i - v.inlineVec.length < big.toVector.length := by
        rw [hvec, List.length_append] at hi
        omega
      rw [vector.remove_of_lt hin] at hmap
      obtain ⟨⟨val, big'⟩, hbigRemove, hpair⟩ := Option.map_eq_some_iff.mp hmap
      obtain ⟨rfl, hbig'vec⟩ := Prod.mk.inj hpair
      obtain ⟨hbig', -⟩ := hkeep _ big' hbigRemove
      obtain ⟨w, hrestore, hwvec, -, hcap, hbs, hwbig⟩ := v.restoreBig_spec hbig'
      have hremove : v.remove i = some (big.toVector[i - v.inlineVec.length], w) := by
        unfold remove
        simp only [if_pos hlt, if_neg hinline, hbig, Option.bind_eq_bind, hbigRemove,
          Option.bind_some, hrestore]
      rw [hremove, hvec, vector.remove_append_right _ (Nat.le_of_not_lt hinline),
        vector.remove_of_lt hin, Option.map_some, Option.map_some, hwvec, hbig'vec]
      refine ⟨rfl, ?_⟩
      rintro val w' hw'
      obtain ⟨-, rfl⟩ := Prod.mk.inj (Option.some.inj hw')
      exact hv.of_config_eq hwbig hcap hbs

/-- `borrow_mut` writes the element as the vector's does and keeps the smart vector valid. -/
theorem borrowMut_spec (i : Nat) (x : α) :
    (v.borrowMut i x).map toVector = vector.borrowMut v.toVector i x ∧
      ∀ w, v.borrowMut i x = some w → w.Valid := by
  by_cases hi : i < v.toVector.length
  swap
  · have hnone : v.borrowMut i x = none := if_neg (by rwa [hv.length_eq])
    rw [hnone, vector.borrowMut_of_le (Nat.le_of_not_lt hi)]
    exact ⟨rfl, by simp⟩
  have hlt : i < v.length := hv.length_eq ▸ hi
  by_cases hinline : i < v.inlineVec.length
  · have hwrite : v.borrowMut i x = some { v with inlineVec := v.inlineVec.set i x } := by
      unfold borrowMut
      simp only [if_pos hlt, if_pos hinline, vector.borrowMut_of_lt hinline, Option.map_some]
    rw [hwrite, toVector_eq, vector.borrowMut_append_left hinline, vector.borrowMut_of_lt hinline]
    refine ⟨rfl, ?_⟩
    rintro w hw
    obtain rfl := Option.some.inj hw
    exact hv.of_config_eq (fun big hmem ↦ ⟨hv.big_valid big hmem, hv.big_ne_nil big hmem⟩) rfl rfl
  · cases hbig : v.bigVec with
    | none =>
      rw [length_toVector_of_bigVec_eq_none hbig] at hi
      exact absurd hi hinline
    | some big =>
      have hbigValid : big.Valid := hv.big_valid big hbig
      have hvec : v.toVector = v.inlineVec ++ big.toVector := by simp [toVector, hbig]
      have hin : i - v.inlineVec.length < big.toVector.length := by
        rw [hvec, List.length_append] at hi
        omega
      obtain ⟨hmap, hkeep⟩ := hbigValid.borrowMut_spec (i - v.inlineVec.length) x
      rw [vector.borrowMut_of_lt hin] at hmap
      obtain ⟨big', hbigWrite, hbig'vec⟩ := Option.map_eq_some_iff.mp hmap
      have hwrite : v.borrowMut i x = some { v with bigVec := some big' } := by
        unfold borrowMut
        simp only [if_pos hlt, if_neg hinline, hbig, hbigWrite, Option.map_some]
      rw [hwrite, hvec, vector.borrowMut_append_right _ (Nat.le_of_not_lt hinline),
        vector.borrowMut_of_lt hin, Option.map_some, Option.map_some, toVector_eq]
      refine ⟨by simp [hbig'vec], ?_⟩
      rintro w hw
      obtain rfl := Option.some.inj hw
      refine hv.of_config_eq ?_ rfl rfl
      simp only [Option.mem_def, Option.some.injEq, forall_eq']
      refine ⟨(hkeep big' hbigWrite).1, ?_⟩
      rw [hbig'vec]
      exact List.ne_nil_of_length_pos (by rw [List.length_set]; omega)

/-- `swap_remove` acts on the elements as the vector's does and keeps the smart vector valid. -/
theorem swapRemove_spec (i : Nat) :
    (v.swapRemove i).map (fun removed ↦ (removed.1, removed.2.toVector)) =
        vector.swapRemove v.toVector i ∧
      ∀ val w, v.swapRemove i = some (val, w) → w.Valid := by
  by_cases hi : i < v.toVector.length
  swap
  · have hnone : v.swapRemove i = none := if_neg (by rwa [hv.length_eq])
    rw [hnone, vector.swapRemove_of_le (Nat.le_of_not_lt hi)]
    exact ⟨rfl, by simp⟩
  have hlt : i < v.length := hv.length_eq ▸ hi
  have hkeepBig : ∀ big ∈ v.bigVec, big.Valid ∧ big.toVector ≠ [] :=
    fun big hmem ↦ ⟨hv.big_valid big hmem, hv.big_ne_nil big hmem⟩
  by_cases hinline : i < v.inlineVec.length
  · cases hbig : v.bigVec with
    | none =>
      have hlen : ¬ v.inlineVec.length < v.length := by
        rw [hv.length_eq, length_toVector_of_bigVec_eq_none hbig]
        exact Nat.lt_irrefl _
      have hremove : v.swapRemove i = some (v.inlineVec[i], { v with inlineVec :=
          (v.inlineVec.set i v.inlineVec[v.inlineVec.length - 1]).dropLast }) := by
        unfold swapRemove
        simp only [if_pos hlt, if_neg (Nat.not_le.mpr hinline), if_neg hlen, Option.bind_eq_bind,
          Option.bind_some, vector.swapRemove_of_lt hinline]
      rw [hremove, toVector_eq, hbig, vector.swapRemove_of_lt (by simpa [hbig] using hinline)]
      refine ⟨by simp [toVector_eq], ?_⟩
      rintro val w hw
      obtain ⟨-, rfl⟩ := Prod.mk.inj (Option.some.inj hw)
      exact hv.of_config_eq (by simp) rfl rfl
    | some big =>
      have hbigValid : big.Valid := hv.big_valid big hbig
      obtain ⟨init, last, hsplit⟩ : ∃ init last, big.toVector = init ++ [last] := by
        rcases big.toVector.eq_nil_or_concat' with h | h
        · exact absurd h (hv.big_ne_nil big hbig)
        · exact h
      obtain ⟨big', hpop, hbig', hbig'vec, -⟩ := hbigValid.popBack_concat hsplit
      obtain ⟨w, hrestore, hwvec, hwinl, hcap, hbs, hwbig⟩ := v.restoreBig_spec hbig'
      have hvec : v.toVector = (v.inlineVec ++ init) ++ [last] := by simp [toVector, hbig, hsplit]
      have hlen : v.inlineVec.length < v.length := by
        rw [hv.length_eq, hvec]
        simp
      have hwbigvec : (w.bigVec.map BigVector.toVector).getD [] = init := by
        rw [toVector_eq, hwinl, hbig'vec] at hwvec
        exact List.append_cancel_left hwvec
      have hremove : v.swapRemove i =
          some (v.inlineVec[i], { w with inlineVec := v.inlineVec.set i last }) := by
        unfold swapRemove
        simp only [if_pos hlt, if_neg (Nat.not_le.mpr hinline), if_pos hlen, hbig,
          Option.bind_eq_bind, hpop, Option.bind_some, hrestore, hwinl,
          vector.swapRemove_concat_of_lt hinline]
      rw [hremove, hvec, vector.swapRemove_concat_of_lt (by simp; omega), Option.map_some,
        toVector_eq, hwbigvec, List.getElem_append_left hinline, List.set_append_left _ _ hinline]
      refine ⟨rfl, ?_⟩
      rintro val w' hw'
      obtain ⟨-, rfl⟩ := Prod.mk.inj (Option.some.inj hw')
      exact hv.of_config_eq hwbig hcap hbs
  · cases hbig : v.bigVec with
    | none =>
      rw [length_toVector_of_bigVec_eq_none hbig] at hi
      exact absurd hi hinline
    | some big =>
      have hbigValid : big.Valid := hv.big_valid big hbig
      have hvec : v.toVector = v.inlineVec ++ big.toVector := by simp [toVector, hbig]
      have hin : i - v.inlineVec.length < big.toVector.length := by
        rw [hvec, List.length_append] at hi
        omega
      obtain ⟨hmap, hkeep⟩ := hbigValid.swapRemove_spec (i - v.inlineVec.length)
      rw [vector.swapRemove_of_lt hin] at hmap
      obtain ⟨⟨val, big'⟩, hbigRemove, hpair⟩ := Option.map_eq_some_iff.mp hmap
      obtain ⟨rfl, hbig'vec⟩ := Prod.mk.inj hpair
      obtain ⟨hbig', -⟩ := hkeep _ big' hbigRemove
      obtain ⟨w, hrestore, hwvec, -, hcap, hbs, hwbig⟩ := v.restoreBig_spec hbig'
      have hremove : v.swapRemove i = some (big.toVector[i - v.inlineVec.length], w) := by
        unfold swapRemove
        simp only [if_pos hlt, if_pos (Nat.le_of_not_lt hinline), hbig, Option.bind_eq_bind,
          hbigRemove, Option.bind_some, hrestore]
      rw [hremove, hvec, vector.swapRemove_append_right _ (Nat.le_of_not_lt hinline),
        vector.swapRemove_of_lt hin, Option.map_some, Option.map_some, hwvec, hbig'vec]
      refine ⟨rfl, ?_⟩
      rintro val w' hw'
      obtain ⟨-, rfl⟩ := Prod.mk.inj (Option.some.inj hw')
      exact hv.of_config_eq hwbig hcap hbs

/-- `swap` once `i ≤ j`: in the big vector, in the inline vector, or across the two, where each
element is swap-removed from its part, pushed onto the other and swapped back into place. -/
theorem swapOrdered_spec {i j : Nat} (hij : i ≤ j) :
    (v.swapOrdered i j).map toVector = vector.swap v.toVector i j ∧
      ∀ w, v.swapOrdered i j = some w → w.Valid := by
  by_cases hj : j < v.toVector.length
  swap
  · have hnone : v.swapOrdered i j = none := if_neg (by rwa [hv.length_eq])
    rw [hnone, vector.swap_eq_none (by omega)]
    exact ⟨rfl, by simp⟩
  have hlt : j < v.length := hv.length_eq ▸ hj
  have hkeepBig : ∀ big ∈ v.bigVec, big.Valid ∧ big.toVector ≠ [] :=
    fun big hmem ↦ ⟨hv.big_valid big hmem, hv.big_ne_nil big hmem⟩
  by_cases hjinline : j < v.inlineVec.length
  · have hiinline : i < v.inlineVec.length := by omega
    have hswap : v.swapOrdered i j = (vector.swap v.inlineVec i j).map fun inlineVec ↦
        { v with inlineVec } := by
      unfold swapOrdered
      simp only [if_pos hlt, if_neg (Nat.not_le.mpr hiinline), if_pos hjinline]
    rw [hswap, toVector_eq, vector.swap_append_left hiinline hjinline,
      vector.swap_of_lt hiinline hjinline, Option.map_some, Option.map_some]
    refine ⟨rfl, ?_⟩
    rintro w hw
    obtain rfl := Option.some.inj hw
    exact hv.of_config_eq hkeepBig rfl rfl
  cases hbig : v.bigVec with
  | none =>
    rw [length_toVector_of_bigVec_eq_none hbig] at hj
    exact absurd hj hjinline
  | some big =>
    have hbigValid : big.Valid := hv.big_valid big hbig
    have hbigne : big.toVector ≠ [] := hv.big_ne_nil big hbig
    have hvec : v.toVector = v.inlineVec ++ big.toVector := by simp [toVector, hbig]
    have hjbig : j - v.inlineVec.length < big.toVector.length := by
      rw [hvec, List.length_append] at hj
      omega
    by_cases hiinline : i < v.inlineVec.length
    · have hjle : v.inlineVec.length ≤ j := Nat.le_of_not_lt hjinline
      obtain ⟨hmap₁, hkeep₁⟩ := hbigValid.swapRemove_spec (j - v.inlineVec.length)
      rw [vector.swapRemove_of_lt hjbig] at hmap₁
      obtain ⟨⟨elementJ, big₁⟩, hbigRemove, hpair⟩ := Option.map_eq_some_iff.mp hmap₁
      obtain ⟨rfl, hbig₁vec⟩ := Prod.mk.inj hpair
      obtain ⟨big₂, hpush, hbig₂, hbig₂vec, -⟩ :=
        (hkeep₁ _ big₁ hbigRemove).1.pushBack_spec v.inlineVec[i]
      have hswapvec : vector.swap big₂.toVector (j - v.inlineVec.length)
          (v.length - v.inlineVec.length - 1) =
            some (big.toVector.set (j - v.inlineVec.length) v.inlineVec[i]) := by
        have hlast : v.length - v.inlineVec.length - 1 = big.toVector.length - 1 := by
          rw [hv.length_eq, hvec, List.length_append]
          omega
        rw [hbig₂vec, hbig₁vec, hlast, vector.swap_swapRemove_concat hjbig]
      obtain ⟨hmap₃, hkeep₃⟩ :=
        hbig₂.swap_spec (j - v.inlineVec.length) (v.length - v.inlineVec.length - 1)
      rw [hswapvec] at hmap₃
      obtain ⟨big₃, hbigSwap, hbig₃vec⟩ := Option.map_eq_some_iff.mp hmap₃
      have hswap : v.swapOrdered i j = some { v with
          inlineVec := v.inlineVec.set i big.toVector[j - v.inlineVec.length],
          bigVec := some big₃ } := by
        unfold swapOrdered
        simp only [if_pos hlt, if_neg (Nat.not_le.mpr hiinline), if_neg hjinline, hbig,
          Option.bind_eq_bind, vector.swapRemove_of_lt hiinline, Option.bind_some, hbigRemove,
          vector.swap_swapRemove_concat hiinline, hpush, hbigSwap]
      rw [hswap, hvec, vector.swap_append_left_right hiinline hjle hjbig, Option.map_some,
        toVector_eq]
      refine ⟨by simp [hbig₃vec], ?_⟩
      rintro w hw
      obtain rfl := Option.some.inj hw
      refine hv.of_config_eq ?_ rfl rfl
      simp only [Option.mem_def, Option.some.injEq, forall_eq']
      refine ⟨(hkeep₃ big₃ hbigSwap).1, ?_⟩
      rw [hbig₃vec]
      exact List.ne_nil_of_length_pos (by simp only [List.length_set]; omega)
    · have hibig : i - v.inlineVec.length < big.toVector.length := by omega
      obtain ⟨hmap, hkeep⟩ := hbigValid.swap_spec (i - v.inlineVec.length) (j - v.inlineVec.length)
      rw [vector.swap_of_lt hibig hjbig] at hmap
      obtain ⟨big', hbigSwap, hbig'vec⟩ := Option.map_eq_some_iff.mp hmap
      have hswap : v.swapOrdered i j = some { v with bigVec := some big' } := by
        unfold swapOrdered
        simp only [if_pos hlt, if_pos (Nat.le_of_not_lt hiinline), hbig, hbigSwap, Option.map_some]
      rw [hswap, hvec, vector.swap_append_right _ (Nat.le_of_not_lt hiinline) (by omega),
        vector.swap_of_lt hibig hjbig, Option.map_some, Option.map_some, toVector_eq]
      refine ⟨by simp [hbig'vec], ?_⟩
      rintro w hw
      obtain rfl := Option.some.inj hw
      refine hv.of_config_eq ?_ rfl rfl
      simp only [Option.mem_def, Option.some.injEq, forall_eq']
      refine ⟨(hkeep big' hbigSwap).1, ?_⟩
      rw [hbig'vec]
      exact List.ne_nil_of_length_pos (by simp only [List.length_set]; omega)

/-- `swap` exchanges the elements as the vector's does and keeps the smart vector valid. -/
theorem swap_spec (i j : Nat) :
    (v.swap i j).map toVector = vector.swap v.toVector i j ∧
      ∀ w, v.swap i j = some w → w.Valid := by
  unfold swap
  split_ifs with hgt
  · rw [vector.swap_comm]
    exact hv.swapOrdered_spec (Nat.le_of_lt hgt)
  · exact hv.swapOrdered_spec (Nat.le_of_not_lt hgt)

/-- `pop_back` of a valid smart vector whose elements end with `last`. -/
theorem popBack_concat {init : List α} {last : α} (hvec : v.toVector = init ++ [last]) :
    ∃ w, v.popBack = some (last, w) ∧ w.Valid ∧ w.toVector = init := by
  obtain ⟨hmap, hvalid⟩ := hv.popBack_spec
  rw [hvec, vector.popBack_concat] at hmap
  obtain ⟨⟨val, w⟩, hpop, hpair⟩ := Option.map_eq_some_iff.mp hmap
  obtain ⟨rfl, hw⟩ := Prod.mk.inj hpair
  exact ⟨w, hpop, hvalid val w hpop, hw⟩

/-- `swap_remove` on a valid smart vector where the vector's answer is known. -/
theorem swapRemove_of_eq_some {i : Nat} {x : α} {rest : List α}
    (h : vector.swapRemove v.toVector i = some (x, rest)) :
    ∃ w, v.swapRemove i = some (x, w) ∧ w.Valid ∧ w.toVector = rest := by
  obtain ⟨hmap, hvalid⟩ := hv.swapRemove_spec i
  rw [h] at hmap
  obtain ⟨⟨x', w⟩, hremove, hpair⟩ := Option.map_eq_some_iff.mp hmap
  obtain ⟨rfl, hw⟩ := Prod.mk.inj hpair
  exact ⟨w, hremove, hvalid x' w hremove, hw⟩

/-- `clear` never aborts on a valid smart vector and empties it. -/
theorem clear_spec : ∃ w, v.clear = some w ∧ w.Valid ∧ w.toVector = [] := by
  cases hbig : v.bigVec with
  | none =>
    refine ⟨{ v with inlineVec := [] }, ?_, hv.of_config_eq (by simp [hbig]) rfl rfl,
      by simp [toVector_eq, hbig]⟩
    unfold clear
    simp only [hbig]
  | some big =>
    refine ⟨{ v with inlineVec := [], bigVec := none }, ?_, hv.of_config_eq (by simp) rfl rfl,
      rfl⟩
    unfold clear
    simp only [hbig, (hv.big_valid big hbig).destroy_eq, Option.map_some]

/-- A valid smart vector without elements has no big vector, so `destroy_empty` accepts it. -/
theorem destroyEmpty_eq (hnil : v.toVector = []) : v.destroyEmpty = some () := by
  have hbig : v.bigVec = none := by
    cases hb : v.bigVec with
    | none => rfl
    | some big =>
      have hne := hv.big_ne_nil big hb
      rw [toVector_eq, hb, Option.map_some, Option.getD_some, List.append_eq_nil_iff] at hnil
      exact absurd hnil.2 hne
  unfold destroyEmpty
  rw [if_pos (hv.isEmpty_iff.mpr hnil), hbig]

end Valid
theorem popBackInto_zero (v : SmartVector α) (acc : List α) :
    popBackInto 0 v acc = some (v, acc) := rfl

theorem popBackInto_succ (count : Nat) (v : SmartVector α) (acc : List α) :
    popBackInto (count + 1) v acc =
      v.popBack.bind fun popped ↦ popBackInto count popped.2 (acc ++ [popped.1]) := rfl

/-- The first loop of `reverse` pops the last `count` elements onto `acc`, last first. -/
theorem Valid.popBackInto_spec (count : Nat) : ∀ {v : SmartVector α} (acc : List α), v.Valid →
    count ≤ v.toVector.length →
    ∃ w, popBackInto count v acc =
        some (w, acc ++ (v.toVector.drop (v.toVector.length - count)).reverse) ∧ w.Valid ∧
      w.toVector = v.toVector.take (v.toVector.length - count) := by
  induction count with
  | zero => exact fun acc hv _ ↦ ⟨_, by simp [popBackInto_zero], hv, by simp⟩
  | succ count ih =>
    intro v acc hv hcount
    obtain ⟨init, last, hvec⟩ : ∃ init last, v.toVector = init ++ [last] := by
      rcases v.toVector.eq_nil_or_concat' with hnil | hconcat
      · rw [hnil] at hcount
        simp at hcount
      · exact hconcat
    have hle : count ≤ init.length := by
      rw [hvec, List.length_append, List.length_singleton] at hcount
      omega
    obtain ⟨v₁, hpop, hv₁, hvec₁⟩ := hv.popBack_concat hvec
    obtain ⟨w, hloop, hw, hwvec⟩ := ih (acc ++ [last]) hv₁ (by rwa [hvec₁])
    have hidx : (init ++ [last]).length - (count + 1) = init.length - count := by simp
    refine ⟨w, ?_, hw, ?_⟩
    · rw [popBackInto_succ, hpop, Option.bind_some, hloop, hvec₁, hvec, hidx,
        List.drop_append_of_le_length (by omega), List.reverse_append, List.reverse_singleton,
        List.singleton_append, List.append_assoc, List.singleton_append]
    · rw [hwvec, hvec₁, hvec, hidx, List.take_append_of_le_length (by omega)]

theorem pushBackAll_cons [SerializedSize α] (v : SmartVector α) (val : α) (vals : List α) :
    v.pushBackAll (val :: vals) = (v.pushBack val).bind fun v ↦ v.pushBackAll vals := rfl

/-- Pushing values one after the other never aborts and appends them. -/
theorem Valid.pushBackAll_spec [SerializedSize α] (vals : List α) : ∀ {v : SmartVector α},
    v.Valid → ∃ w, v.pushBackAll vals = some w ∧ w.Valid ∧ w.toVector = v.toVector ++ vals := by
  induction vals with
  | nil => exact fun hv ↦ ⟨_, rfl, hv, by simp⟩
  | cons val vals ih =>
    intro v hv
    obtain ⟨v₁, hpush, hv₁, hvec₁⟩ := hv.pushBack_spec val
    obtain ⟨w, hall, hw, hwvec⟩ := ih hv₁
    refine ⟨w, ?_, hw, by rw [hwvec, hvec₁, List.append_assoc, List.singleton_append]⟩
    rw [pushBackAll_cons, hpush, Option.bind_some, hall]

theorem Valid.reverse_spec [SerializedSize α] {v : SmartVector α} (hv : v.Valid) :
    ∃ w, v.reverse = some w ∧ w.Valid ∧ w.toVector = v.toVector.reverse := by
  have hk : v.inlineVec.length ≤ v.toVector.length := by
    rw [toVector_eq, List.length_append]
    omega
  obtain ⟨v₁, hpop, hv₁, hvec₁⟩ := hv.popBackInto_spec v.inlineVec.length [] hk
  have hsplit : v.toVector =
      v₁.toVector ++ v.toVector.drop (v.toVector.length - v.inlineVec.length) := by
    rw [hvec₁, List.take_append_drop]
  generalize v.toVector.drop (v.toVector.length - v.inlineVec.length) = T at hpop hsplit
  rw [List.nil_append] at hpop
  have hend : ∀ v₂ : SmartVector α, v₂.Valid → v₂.inlineVec = v₁.inlineVec →
      (v₂.bigVec.map BigVector.toVector).getD [] =
        ((v₁.bigVec.map BigVector.toVector).getD []).reverse →
      ∃ w, ({ v₂ with inlineVec := moveReversed T.reverse.reverse [] } : SmartVector α).pushBackAll
          (moveReversed (moveReversed v₂.inlineVec []).reverse []) = some w ∧ w.Valid ∧
        w.toVector = v.toVector.reverse := by
    intro v₂ hv₂ hinl hbig
    have hv₃ := hv₂.of_config_eq (w := { v₂ with inlineVec := moveReversed T.reverse.reverse [] })
      (fun big hmem ↦ ⟨hv₂.big_valid big hmem, hv₂.big_ne_nil big hmem⟩) rfl rfl
    obtain ⟨w, hall, hw, hwvec⟩ := hv₃.pushBackAll_spec
      (moveReversed (moveReversed v₂.inlineVec []).reverse [])
    refine ⟨w, hall, hw, ?_⟩
    rw [hwvec, hsplit, toVector_eq v₁]
    simp [moveReversed, toVector_eq, hinl, hbig]
  unfold reverse
  simp only [Option.bind_eq_bind, hpop, Option.bind_some]
  cases hbig : v₁.bigVec with
  | none =>
    exact hend { v₁ with bigVec := none } (hv₁.of_config_eq (by simp) rfl rfl) rfl (by simp [hbig])
  | some big =>
    have hbigValid : big.Valid := hv₁.big_valid big hbig
    obtain ⟨big', hbigRev, hbig', hbig'vec, -⟩ := hbigValid.reverse_spec
    dsimp only
    rw [hbigRev, Option.map_some, Option.bind_some]
    refine hend { v₁ with bigVec := some big' } (hv₁.of_config_eq ?_ rfl rfl) rfl
      (by simp [hbig, hbig'vec])
    simp only [Option.mem_def, Option.some.injEq, forall_eq']
    refine ⟨hbig', ?_⟩
    rw [hbig'vec]
    simpa using hv₁.big_ne_nil big hbig

section Append

variable [SerializedSize α]

theorem appendSwapRemove_zero (i : Nat) (lhs other : SmartVector α) :
    appendSwapRemove 0 i lhs other = some (lhs, other) := rfl

theorem appendSwapRemove_succ (count i : Nat) (lhs other : SmartVector α) :
    appendSwapRemove (count + 1) i lhs other = (other.swapRemove i).bind fun removed ↦
      (lhs.pushBack removed.1).bind fun lhs ↦ appendSwapRemove count (i + 1) lhs removed.2 := rfl

theorem appendPopBack_zero (lhs other : SmartVector α) :
    appendPopBack 0 lhs other = some (lhs, other) := rfl

theorem appendPopBack_succ (count : Nat) (lhs other : SmartVector α) :
    appendPopBack (count + 1) lhs other = other.popBack.bind fun popped ↦
      (lhs.pushBack popped.1).bind fun lhs ↦ appendPopBack count lhs popped.2 := rfl

/-- `append` never aborts on valid smart vectors and appends the elements of `other` in
order. -/
theorem Valid.append_spec {lhs other : SmartVector α} (hl : lhs.Valid) (ho : other.Valid) :
    ∃ w, lhs.append other = some w ∧ w.Valid ∧ w.toVector = lhs.toVector ++ other.toVector := by
  obtain ⟨lhs₁, other₁, hloop₁, hl₁, ho₁, hfront⟩ :=
    vector.appendSwapRemove_loop toVector appendSwapRemove_zero appendSwapRemove_succ
      (fun _ _ _ _ ho h ↦ Valid.swapRemove_of_eq_some ho h)
      (fun _ x hw ↦ Valid.pushBack_spec hw x)
      (other.toVector.length / 2) hl ho
      (vector.appendFront_zero lhs.toVector other.toVector) (by omega)
  rw [Nat.zero_add] at hfront
  obtain ⟨lhs₂, other₂, hloop₂, hl₂, ho₂, hlvec, hnil⟩ :=
    vector.appendPopBack_loop toVector appendPopBack_zero appendPopBack_succ
      (fun _ _ _ hw h ↦ Valid.popBack_concat hw h) (fun _ x hw ↦ Valid.pushBack_spec hw x)
      (other.toVector.length - other.toVector.length / 2) hl₁ ho₁ hfront.length_other
  refine ⟨lhs₂, ?_, hl₂, by rw [hlvec, hfront.append_reverse]⟩
  unfold append
  simp only [ho.length_eq, Option.bind_eq_bind, hloop₁, Option.bind_some, hloop₂,
    ho₂.destroyEmpty_eq hnil]

end Append

/-! ## Runs of calls -/

section Calls

variable [SerializedSize α] [DecidableEq α]

/-- One call of the `smart_vector` API on `v`, `none` when it aborts. The vector passed to
`append` is a valid smart vector. -/
def perform (v : SmartVector α) :
    vector.Call α {other : SmartVector α // other.Valid} → Option (SmartVector α × vector.Ret α)
  | .pushBack val => (v.pushBack val).map fun w ↦ (w, .unit)
  | .popBack => v.popBack.map fun popped ↦ (popped.2, .value popped.1)
  | .remove i => (v.remove i).map fun removed ↦ (removed.2, .value removed.1)
  | .swapRemove i => (v.swapRemove i).map fun removed ↦ (removed.2, .value removed.1)
  | .swap i j => (v.swap i j).map fun w ↦ (w, .unit)
  | .borrowMut i val => (v.borrowMut i val).map fun w ↦ (w, .unit)
  | .reverse => v.reverse.map fun w ↦ (w, .unit)
  | .append other => (v.append other.1).map fun w ↦ (w, .unit)
  | .borrow i => (v.borrow i).map fun val ↦ (v, .value val)
  | .indexOf val => some (v, .index (v.indexOf val).1 (v.indexOf val).2)
  | .contains val => some (v, .flag (v.contains val))
  | .length => some (v, .count v.length)
  | .isEmpty => some (v, .flag v.isEmpty)

/-- Every call but `index_of` of a value the vector does not hold, where the smart vector answers
otherwise (`Valid.indexOf_absent_ne`). -/
def Answerable {β : Type} (elems : List α) : vector.Call α β → Prop
  | .indexOf val => val ∈ elems
  | _ => True

namespace Valid

variable {v : SmartVector α} (hv : v.Valid)
include hv

/-- An answerable call on a valid smart vector answers as the vector's on its elements, and
aborts with it. -/
theorem perform_map (call : vector.Call α {other : SmartVector α // other.Valid})
    (hcall : Answerable v.toVector call) :
    (v.perform call).map (Prod.map toVector id) =
      vector.perform (fun other ↦ other.1.toVector) v.toVector call := by
  cases call with
  | pushBack val =>
    obtain ⟨w, hpush, -, hw⟩ := hv.pushBack_spec val
    dsimp only [perform, vector.perform]
    rw [hpush, Option.map_some, Option.map_some, Prod.map, hw]
    rfl
  | popBack =>
    dsimp only [perform, vector.perform]
    rw [← hv.popBack_spec.1, Option.map_map, Option.map_map]
    rfl
  | remove i =>
    dsimp only [perform, vector.perform]
    rw [← (hv.remove_spec i).1, Option.map_map, Option.map_map]
    rfl
  | swapRemove i =>
    dsimp only [perform, vector.perform]
    rw [← (hv.swapRemove_spec i).1, Option.map_map, Option.map_map]
    rfl
  | swap i j =>
    dsimp only [perform, vector.perform]
    rw [← (hv.swap_spec i j).1, Option.map_map, Option.map_map]
    rfl
  | borrowMut i val =>
    dsimp only [perform, vector.perform]
    rw [← (hv.borrowMut_spec i val).1, Option.map_map, Option.map_map]
    rfl
  | reverse =>
    obtain ⟨w, hrev, -, hw⟩ := hv.reverse_spec
    dsimp only [perform, vector.perform]
    rw [hrev, Option.map_some, Option.map_some, Prod.map, hw]
    rfl
  | append other =>
    obtain ⟨w, happ, -, hw⟩ := hv.append_spec other.2
    dsimp only [perform, vector.perform]
    rw [happ, Option.map_some, Option.map_some, Prod.map, hw]
    rfl
  | borrow i =>
    dsimp only [perform, vector.perform]
    rw [hv.borrow_eq, Option.map_map]
    rfl
  | indexOf val =>
    have hmem : val ∈ v.toVector := hcall
    dsimp only [perform, vector.perform]
    rw [hv.indexOf_eq, if_pos hmem]
    rfl
  | contains val =>
    dsimp only [perform, vector.perform]
    rw [hv.contains_eq]
    rfl
  | length =>
    dsimp only [perform, vector.perform]
    rw [hv.length_eq]
    rfl
  | isEmpty =>
    dsimp only [perform, vector.perform]
    rw [isEmpty, hv.length_eq]
    rfl

/-- A call that answers leaves a valid smart vector. -/
theorem perform_valid (call : vector.Call α {other : SmartVector α // other.Valid})
    {result : SmartVector α × vector.Ret α} (h : v.perform call = some result) :
    result.1.Valid := by
  cases call with
  | pushBack val =>
    obtain ⟨w, hpush, hw, -⟩ := hv.pushBack_spec val
    dsimp only [perform] at h
    rw [hpush, Option.map_some, Option.some.injEq] at h
    rw [← h]
    exact hw
  | popBack =>
    dsimp only [perform] at h
    obtain ⟨popped, hpop, rfl⟩ := Option.map_eq_some_iff.mp h
    exact hv.popBack_spec.2 popped.1 popped.2 hpop
  | remove i =>
    dsimp only [perform] at h
    obtain ⟨removed, hremove, rfl⟩ := Option.map_eq_some_iff.mp h
    exact (hv.remove_spec i).2 removed.1 removed.2 hremove
  | swapRemove i =>
    dsimp only [perform] at h
    obtain ⟨removed, hremove, rfl⟩ := Option.map_eq_some_iff.mp h
    exact (hv.swapRemove_spec i).2 removed.1 removed.2 hremove
  | swap i j =>
    dsimp only [perform] at h
    obtain ⟨w, hswap, rfl⟩ := Option.map_eq_some_iff.mp h
    exact (hv.swap_spec i j).2 w hswap
  | borrowMut i val =>
    dsimp only [perform] at h
    obtain ⟨w, hwrite, rfl⟩ := Option.map_eq_some_iff.mp h
    exact (hv.borrowMut_spec i val).2 w hwrite
  | reverse =>
    obtain ⟨w, hrev, hw, -⟩ := hv.reverse_spec
    dsimp only [perform] at h
    rw [hrev, Option.map_some, Option.some.injEq] at h
    rw [← h]
    exact hw
  | append other =>
    obtain ⟨w, happ, hw, -⟩ := hv.append_spec other.2
    dsimp only [perform] at h
    rw [happ, Option.map_some, Option.some.injEq] at h
    rw [← h]
    exact hw
  | borrow i =>
    dsimp only [perform] at h
    obtain ⟨val, -, rfl⟩ := Option.map_eq_some_iff.mp h
    exact hv
  | indexOf val | contains val | length | isEmpty =>
    dsimp only [perform] at h
    rw [← Option.some.inj h]
    exact hv

end Valid

/-- `perform` on valid smart vectors is simulated by the vector's `perform` on their elements,
on the answerable calls. -/
theorem simulatesOn_vector :
    SimulatesOn Answerable Valid (atomic (perform (α := α)))
      (atomic (vector.perform fun other : {other : SmartVector α // other.Valid} ↦
        other.1.toVector)) toVector :=
  SimulatesOn.of_atomic (fun _ call hv hcall ↦ hv.perform_map call hcall)
    (fun _ call _ hv h ↦ hv.perform_valid call h)

/-- From a valid smart vector, every run of calls (an aborted call leaving the smart vector as
it was) in which `index_of` is asked only for values the vector holds answers as the same calls
on a `std::vector` holding its elements, and ends with the elements that vector ends with. -/
theorem Valid.run_perform_eq_vector_run_of_answerable {v : SmartVector α} (hv : v.Valid)
    (calls : List (vector.Call α {other : SmartVector α // other.Valid}))
    (hcalls : ¬Eventually (atomic (vector.perform fun other ↦ other.1.toVector))
      (fun elems call ↦ ¬Answerable elems call) v.toVector calls) :
    Prod.map toVector id (run (atomic perform) v calls) =
      run (atomic (vector.perform fun other ↦ other.1.toVector)) v.toVector calls :=
  simulatesOn_vector.abs_run hv calls hcalls

/-- `empty_with_config(1, 1)` after `push_back` of `1` and `2`: a push, a removal from the
inline vector, a swap across the two parts, a reverse and a `contains`. -/
theorem run_perform_config_one_one :
    (⟨[1], some ⟨[[2]], 1, 1⟩, some 1, some 1⟩ : SmartVector UInt64).Valid ∧
      Prod.map toVector id (run (atomic perform) ⟨[1], some ⟨[[2]], 1, 1⟩, some 1, some 1⟩
          [.pushBack 3, .remove 0, .swap 0 1, .reverse, .contains 2]) =
        run (atomic (vector.perform fun other : {other : SmartVector UInt64 // other.Valid} ↦
          other.1.toVector)) [1, 2] [.pushBack 3, .remove 0, .swap 0 1, .reverse, .contains 2] :=
  have hbig : (⟨[[2]], 1, 1⟩ : BigVector UInt64).Valid :=
    ⟨by decide, ⟨by decide, by decide, by decide⟩, rfl⟩
  have hv : (⟨[1], some ⟨[[2]], 1, 1⟩, some 1, some 1⟩ : SmartVector UInt64).Valid :=
    ⟨by simpa using hbig, by simp [BigVector.toVector], rfl, by simp⟩
  ⟨hv, Valid.run_perform_eq_vector_run_of_answerable hv _
    (not_eventually_of_forall (fun _ call hcall ↦ by
      simp only [List.mem_cons, List.not_mem_nil, or_false] at hcall
      rcases hcall with rfl | rfl | rfl | rfl | rfl <;> exact not_not.mpr trivial) _)⟩

end Calls

end SmartVector

end AptosCore.Move
