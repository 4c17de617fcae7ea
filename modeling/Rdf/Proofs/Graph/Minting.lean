import Rdf.Graph.Basic

/-!
Minted labels are new.

The numbers that `Graph.freeNumber` passes over have different labels, all of them seen. There are
not more of them than seen labels, so that the number behind the last try is free where no earlier
one is.
-/

namespace Rdf.Graph

theorem mintedLabel_injective {m n : Nat} (h : mintedLabel m = mintedLabel n) : m = n := by
  have hrepr : (toString m).toList = (toString n).toList := by
    have ht := congrArg String.toList h
    simpa [mintedLabel] using ht
  have hdigits : Nat.toDigits 10 m = Nat.toDigits 10 n := by
    simpa only [Nat.toString_eq_repr, Nat.toList_repr] using hrepr
  have hnumber := congrArg (Nat.ofDigitChars 10 · 0) hdigits
  simpa only [Nat.ofDigitChars_ten_toDigits] using hnumber

/-- The number found is free, or each of the tries met a seen label. -/
theorem freeNumber_cases (seen : List String) (tries number : Nat) :
    mintedLabel (freeNumber seen tries number) ∉ seen ∨
      freeNumber seen tries number = number + tries ∧
        ∀ m, number ≤ m → m < number + tries → mintedLabel m ∈ seen := by
  induction tries generalizing number with
  | zero => exact Or.inr ⟨rfl, fun m h1 h2 => absurd h1 (by omega)⟩
  | succ tries ih =>
    by_cases hseen : mintedLabel number ∈ seen
    · have hnext : freeNumber seen (tries + 1) number = freeNumber seen tries (number + 1) := by
        simp [freeNumber, hseen]
      rw [hnext]
      cases ih (number + 1) with
      | inl hfree => exact Or.inl hfree
      | inr hall =>
        refine Or.inr ⟨by omega, fun m h1 h2 => ?_⟩
        by_cases hm : m = number
        · exact hm ▸ hseen
        · exact hall.2 m (by omega) (by omega)
    · exact Or.inl (by simp [freeNumber, hseen])

theorem freeNumber_free (seen : List String) (number : Nat) :
    mintedLabel (freeNumber seen seen.length number) ∉ seen := by
  cases freeNumber_cases seen seen.length number with
  | inl hfree => exact hfree
  | inr hall =>
    intro hlast
    have hrange : (List.range' number (seen.length + 1)).map mintedLabel ⊆ seen := by
      intro label hlabel
      obtain ⟨m, hm, rfl⟩ := List.mem_map.1 hlabel
      have hbounds := List.mem_range'_1.1 hm
      by_cases he : m = number + seen.length
      · rwa [he, ← hall.1]
      · exact hall.2 m hbounds.1 (by omega)
    have hnodup : ((List.range' number (seen.length + 1)).map mintedLabel).Nodup :=
      List.pairwise_map.2 (List.Pairwise.imp (fun hne he => hne (mintedLabel_injective he))
        (List.nodup_range' 1))
    have hlength := hnodup.length_le_of_subset hrange
    simp only [List.length_map, List.length_range'] at hlength
    omega

theorem mint_not_mem (g : Graph) : g.mint.1 ∉ g.seen := freeNumber_free g.seen g.nextNumber

/-- Minting several labels sees just these. -/
theorem seen_mintMany (g : Graph) (count : Nat) :
    (g.mintMany count).2.seen = g.seen ++ (g.mintMany count).1 := by
  induction count generalizing g with
  | zero => simp [mintMany]
  | succ count ih => simp [mintMany, ih, mint]

/-- Minted labels are different from each other, as well as from the seen ones. -/
theorem nodup_seen_mintMany {g : Graph} (h : g.seen.Nodup) (count : Nat) :
    (g.mintMany count).2.seen.Nodup := by
  induction count generalizing g with
  | zero => exact h
  | succ count ih =>
    refine ih (List.nodup_append.2 ⟨h, by simp, fun a ha b hb he => ?_⟩)
    obtain rfl := List.mem_singleton.1 hb
    subst he
    exact mint_not_mem g ha

end Rdf.Graph
