import Mathlib.Data.List.Infix
import Mathlib.Logic.Function.Basic

/-!
# Maps from paths

What stands at each path is a function of the path. A part of the map is replaced by
another map whose paths start at the place of the part.
-/
namespace Bpy.PathMaps
open List Function

variable {N V : Type} {f f₁ f' : List N → Option V} {q q' : List N}

/-- There is nothing at the path and below it. -/
def Free (f : List N → Option V) (q : List N) : Prop := ∀ p, f (q ++ p) = none

/-- In `f'` the map `m` stands at the path `q`, and all else is as in `f`. -/
structure Grafted (f : List N → Option V) (q : List N) (m : List N → Option V) (f' : List N → Option V) :
    Prop where
  inside : ∀ p, f' (q ++ p) = m p
  outside : ∀ x, ¬ q <+: x → f' x = f x

/-- The map `m n` stands at the name `n` in the folder `q`, for each of the names. -/
structure Filled (f : List N → Option V) (q : List N) (m : N → List N → Option V) (ns : List N)
    (f' : List N → Option V) : Prop where
  inside : ∀ n ∈ ns, ∀ p, f' (q ++ n :: p) = m n p
  outside : ∀ x, (∀ n ∈ ns, ¬ q ++ [n] <+: x) → f' x = f x

/-- A single value. -/
def leaf (v : V) : List N → Option V
  | [] => some v
  | _ :: _ => none

theorem Free.self (h : Free f q) : f q = none := by
  have hq := h []
  rwa [append_nil] at hq

theorem Free.grafted {m : List N → Option V} (h : Free f q') (hg : Grafted f q m f')
    (hq : ¬ q <+: q') (hq' : ¬ q' <+: q) : Free f' q' := by
  intro p
  rw [hg.outside, h p]
  intro hpre
  rcases prefix_or_prefix_of_prefix hpre (prefix_append q' p) with h | h
  · exact hq h
  · exact hq' h

variable {m : N → List N → Option V} {n : N} {ns : List N}

theorem filled_nil : Filled f q m [] f := ⟨by simp, fun _ _ => rfl⟩

theorem not_append_prefix_append {a b : N} (hab : a ≠ b) (p : List N) : ¬ q ++ [a] <+: q ++ b :: p := by
  rw [prefix_append_right_inj, cons_prefix_cons]
  exact fun h => hab h.1

theorem Filled.cons (h : Grafted f (q ++ [n]) (m n) f₁) (hn : n ∉ ns) (hs : Filled f₁ q m ns f') :
    Filled f q m (n :: ns) f' := by
  constructor
  · intro a ha p
    rcases mem_cons.mp ha with rfl | ha
    · rw [hs.outside]
      · have hin := h.inside p
        rwa [append_assoc, singleton_append] at hin
      · intro b hb
        apply not_append_prefix_append
        rintro rfl
        exact hn hb
    · exact hs.inside a ha p
  · intro x hx
    rw [hs.outside x (fun b hb => hx b (mem_cons_of_mem n hb)), h.outside x (hx n mem_cons_self)]

variable [DecidableEq N]

/-- A folder with these names in it. -/
def folderMap (v : V) (m : N → List N → Option V) (ns : List N) : List N → Option V
  | [] => some v
  | n :: p => if n ∈ ns then m n p else none

theorem grafted_leaf (h : Free f q) (v : V) : Grafted f q (leaf v) (update f q (some v)) := by
  constructor
  · intro p
    cases p with
    | nil => rw [append_nil, update_self, leaf]
    | cons a p =>
      rw [update_of_ne, h, leaf]
      intro heq
      simp at heq
  · intro x hx
    rw [update_of_ne]
    intro heq
    exact hx (heq ▸ prefix_rfl)

theorem Filled.folder {v : V} (h : Free f q) (hs : Filled (update f q (some v)) q m ns f') :
    Grafted f q (folderMap v m ns) f' := by
  have hleaf := grafted_leaf h v
  constructor
  · intro p
    cases p with
    | nil =>
      rw [append_nil, hs.outside, update_self, folderMap]
      intro a _ hpre
      have hlen := hpre.length_le
      rw [length_append, length_singleton] at hlen
      omega
    | cons a p =>
      rw [folderMap]
      split
      · rename_i ha
        exact hs.inside a ha p
      · rename_i ha
        rw [hs.outside, hleaf.inside, leaf]
        intro b hb
        apply not_append_prefix_append
        rintro rfl
        exact ha hb
  · intro x hx
    rw [hs.outside, hleaf.outside x hx]
    intro a _ hpre
    exact hx ((prefix_append q [a]).trans hpre)

end Bpy.PathMaps
