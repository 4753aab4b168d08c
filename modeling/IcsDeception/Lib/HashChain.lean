import Mathlib.Data.List.Forall2

/-!
# Agreement carried backwards along a chain

Two lists of records whose elements are linked by digests agree wherever a later pair
agrees, provided that equal digests force agreement and agreement forces equal links.
-/

namespace IcsDeception.HashChain

variable {α δ : Type*}

/-- Every element carries the digest of the one before it. -/
def Linked (digest link : α → δ) (xs : List α) : Prop :=
  xs.IsChain fun x y => link y = digest x

/-- If the digests of the last elements agree and the lists are equally long, the lists
agree element by element. -/
theorem forall₂_of_last_digest {R : α → α → Prop} {digest link : α → δ} {xs ys : List α}
    (hx : Linked digest link xs) (hy : Linked digest link ys) (hlen : xs.length = ys.length)
    (hbind : ∀ x ∈ xs, ∀ y ∈ ys, digest x = digest y → R x y)
    (hlink : ∀ x y, R x y → link x = link y)
    (hlast : xs.getLast?.map digest = ys.getLast?.map digest) : List.Forall₂ R xs ys := by
  -- the induction follows the list, and the head is bound through the link of the second element
  induction xs generalizing ys with
  | nil =>
      cases ys with
      | nil => exact List.Forall₂.nil
      | cons y ys => simp at hlen
  | cons x xs ih =>
      cases ys with
      | nil => simp at hlen
      | cons y ys =>
          cases xs with
          | nil =>
              obtain rfl : ys = [] := List.length_eq_zero_iff.mp (by simpa using hlen.symm)
              refine List.Forall₂.cons (hbind x (by simp) y (by simp) ?_) List.Forall₂.nil
              simpa using hlast
          | cons x' xs =>
              cases ys with
              | nil => simp at hlen
              | cons y' ys =>
                  obtain ⟨hxx, hx⟩ := List.isChain_cons_cons.mp hx
                  obtain ⟨hyy, hy⟩ := List.isChain_cons_cons.mp hy
                  have htail := ih hx hy (by simpa using hlen)
                    (fun a ha b hb => hbind a (List.mem_cons_of_mem _ ha) b
                      (List.mem_cons_of_mem _ hb)) (by simpa using hlast)
                  cases htail with
                  | cons hhead hrest =>
                      have hdigest : digest x = digest y := by
                        rw [← hxx, ← hyy, hlink _ _ hhead]
                      exact List.Forall₂.cons (hbind x (by simp) y (by simp) hdigest)
                        (List.Forall₂.cons hhead hrest)

end IcsDeception.HashChain
