import Mathlib.Data.List.Infix
import Mathlib.Logic.Function.Basic

/-!
# Paths through linked folders

Entries of type `E` stand in folders, under names of type `N`. The entry of a folder
refers to what is in the folder by a reference of type `R`. What a reference stands for
never changes, so a folder is changed by making a new one and linking it in a new folder
above it, up to the first one.
-/
namespace Bpy.LinkedFolders

/-- Listings of type `D` say what is in a folder. -/
structure Links (N E R D : Type) where
  /-- the reference in the entry of a folder -/
  folder : E → Option R
  /-- the entry with another reference -/
  link : E → R → E
  /-- the entry that a name leads to -/
  find : D → N → Option E
  /-- the listing with another reference in the entry of a name -/
  relink : D → N → R → D
  /-- the listing of the folder that a reference stands for -/
  contents : R → D → Prop
  folder_link : ∀ e r r', folder e = some r → folder (link e r') = some r'
  find_relink : ∀ d n r e, find d n = some e → find (relink d n r) n = some (link e r)
  find_relink_of_ne : ∀ d n r m, m ≠ n → find (relink d n r) m = find d m
  unique : ∀ r d d', contents r d → contents r d' → d = d'

inductive Failure (N E : Type)
  | missing (name : N)
  | notFolder (ent : E)

variable {N E R D : Type} {L L' : Links N E R D}

namespace Links

/-- From the entry `e` the path leads to the result. -/
inductive Resolves (L : Links N E R D) : E → List N → Except (Failure N E) E → Prop
  | here (e : E) : Resolves L e [] (.ok e)
  | notFolder {e : E} {n : N} {ns : List N} (hf : L.folder e = none) :
      Resolves L e (n :: ns) (.error (.notFolder e))
  | missing {e : E} {r : R} {d : D} {n : N} {ns : List N} (hf : L.folder e = some r)
      (hd : L.contents r d) (hn : L.find d n = none) : Resolves L e (n :: ns) (.error (.missing n))
  | step {e a : E} {r : R} {d : D} {n : N} {ns : List N} {x : Except (Failure N E) E}
      (hf : L.folder e = some r) (hd : L.contents r d) (hn : L.find d n = some a)
      (h : Resolves L a ns x) : Resolves L e (n :: ns) x

/-- From `r` to `r'` the folder at the path is changed by `P`, and the folders above it are
linked anew. -/
inductive Edited (L : Links N E R D) (P : R → R → Prop) : List N → R → R → Prop
  | here {r r' : R} (h : P r r') : Edited L P [] r r'
  | deeper {r r' s s' : R} {d : D} {e : E} {n : N} {ns : List N} (hd : L.contents r d)
      (hn : L.find d n = some e) (hf : L.folder e = some s) (h : Edited L P ns s s')
      (hd' : L.contents r' (L.relink d n s')) : Edited L P (n :: ns) r r'

/-- In the folder `r'` the name `n` stands for `x`, and all else is as in `r`. -/
def Rebound (L : Links N E R D) (n : N) (x : Option E) (r r' : R) : Prop :=
  ∃ d d', L.contents r d ∧ L.contents r' d' ∧ L.find d' n = x ∧ ∀ m, m ≠ n → L.find d' m = L.find d m

/-- All folders that can be reached from the reference have listings that satisfy `Q`. -/
inductive Tree (L : Links N E R D) (Q : D → Prop) : R → Prop
  | intro {r : R} {d : D} (hd : L.contents r d) (hQ : Q d)
      (hsub : ∀ n e s, L.find d n = some e → L.folder e = some s → Tree L Q s) : Tree L Q r

/-- `L'` is `L` with more references. -/
structure Extends (L L' : Links N E R D) : Prop where
  folder : L'.folder = L.folder
  link : L'.link = L.link
  find : L'.find = L.find
  relink : L'.relink = L.relink
  contents : ∀ r d, L.contents r d → L'.contents r d

theorem Extends.refl (L : Links N E R D) : L.Extends L := ⟨rfl, rfl, rfl, rfl, fun _ _ h => h⟩

variable {e a : E} {r r' : R} {n : N} {p q : List N} {x : Except (Failure N E) E} {P : R → R → Prop}

section Resolve

variable {d d' : D} {y : Except (Failure N E) E}

theorem resolves_cons (hf : L.folder e = some r) (hd : L.contents r d) : L.Resolves e (n :: p) x ↔
      (L.find d n = none ∧ x = .error (.missing n)) ∨ ∃ a, L.find d n = some a ∧ L.Resolves a p x := by
  constructor
  · intro h
    cases h with
    | notFolder hf' => simp [hf] at hf'
    | missing hf' hd' hn =>
      rw [hf, Option.some.injEq] at hf'
      subst hf'
      exact Or.inl ⟨by rw [L.unique _ _ _ hd hd', hn], rfl⟩
    | step hf' hd' hn h =>
      rw [hf, Option.some.injEq] at hf'
      subst hf'
      exact Or.inr ⟨_, by rw [L.unique _ _ _ hd hd', hn], h⟩
  · rintro (⟨hn, rfl⟩ | ⟨a, hn, h⟩)
    · exact .missing hf hd hn
    · exact .step hf hd hn h

theorem Resolves.mono (hL : L.Extends L') (h : L.Resolves e p x) : L'.Resolves e p x := by
  induction h with
  | here e => exact .here e
  | notFolder hf => exact .notFolder (by rw [hL.folder, hf])
  | missing hf hd hn =>
    exact .missing (by rw [hL.folder, hf]) (hL.contents _ _ hd) (by rw [hL.find, hn])
  | step hf hd hn _ ih =>
    exact .step (by rw [hL.folder, hf]) (hL.contents _ _ hd) (by rw [hL.find, hn]) ih

theorem Resolves.unique (h : L.Resolves e p x) (h' : L.Resolves e p y) : x = y := by
  induction h with
  | here e =>
    cases h'
    rfl
  | notFolder hf =>
    cases h' with
    | notFolder _ => rfl
    | missing hf' _ _ => simp [hf] at hf'
    | step hf' _ _ _ => simp [hf] at hf'
  | missing hf hd hn =>
    rcases (resolves_cons hf hd).mp h' with ⟨-, rfl⟩ | ⟨a, hn', -⟩
    · rfl
    · simp [hn] at hn'
  | step hf hd hn _ ih =>
    rcases (resolves_cons hf hd).mp h' with ⟨hn', -⟩ | ⟨a, hn', h'⟩
    · simp [hn] at hn'
    · rw [hn, Option.some.injEq] at hn'
      subst hn'
      exact ih h'

theorem Resolves.append (h : L.Resolves e p (.ok a)) (h' : L.Resolves a q x) : L.Resolves e (p ++ q) x := by
  induction p generalizing e with
  | nil =>
    cases h
    exact h'
  | cons n ns ih =>
    cases h with
    | step hf hd hn h => exact .step hf hd hn (ih h)

theorem Resolves.of_append (h : L.Resolves e (p ++ n :: q) (.ok a)) :
    ∃ b r d c, L.Resolves e p (.ok b) ∧ L.folder b = some r ∧ L.contents r d ∧ L.find d n = some c ∧
      L.Resolves c q (.ok a) := by
  induction p generalizing e with
  | nil =>
    cases h with
    | step hf hd hn h => exact ⟨e, _, _, _, .here e, hf, hd, hn, h⟩
  | cons m ms ih =>
    cases h with
    | step hf hd hn h =>
      obtain ⟨b, r, d, c, hb, hrest⟩ := ih h
      exact ⟨b, r, d, c, .step hf hd hn hb, hrest⟩

theorem Resolves.relink (hf : L.folder e = some r) (hd : L.contents r d) (hd' : L.contents r' d')
    (hn : L.find d' n = L.find d n) (h : L.Resolves e (n :: p) x) : L.Resolves (L.link e r') (n :: p) x := by
  rw [resolves_cons (L.folder_link e r r' hf) hd', hn]
  exact (resolves_cons hf hd).mp h

end Resolve

section Edit

variable {P' : R → R → Prop}
theorem Edited.mono (hL : L.Extends L') (hP : ∀ r r', P r r' → P' r r') (h : L.Edited P p r r') :
    L'.Edited P' p r r' := by
  induction h with
  | here h => exact .here (hP _ _ h)
  | deeper hd hn hf _ hd' ih =>
    rw [← hL.relink] at hd'
    exact .deeper (hL.contents _ _ hd) (by rw [hL.find, hn]) (by rw [hL.folder, hf]) ih (hL.contents _ _ hd')

theorem Edited.above (h : L.Edited P (p ++ q) r r') (hf : L.folder e = some r) :
    ∃ a s s', L.Resolves e p (.ok a) ∧ L.folder a = some s ∧ L.Edited P q s s' ∧
      L.Resolves (L.link e r') p (.ok (L.link a s')) := by
  induction p generalizing e r r' with
  | nil => exact ⟨e, r, r', .here e, hf, h, .here _⟩
  | cons n ns ih =>
    cases h with
    | deeper hd hn hf' h hd' =>
      obtain ⟨a, s, s', ha, hs, hrest, ha'⟩ := ih h hf'
      refine ⟨a, s, s', .step hf hd hn ha, hs, hrest, ?_⟩
      exact .step (L.folder_link e r r' hf) hd' (L.find_relink _ _ _ _ hn) ha'

theorem Edited.target (h : L.Edited P p r r') (hf : L.folder e = some r) :
    ∃ a s s', L.Resolves e p (.ok a) ∧ L.folder a = some s ∧ P s s' ∧
      L.Resolves (L.link e r') p (.ok (L.link a s')) := by
  rw [← List.append_nil p] at h
  obtain ⟨a, s, s', ha, hs, hrest, ha'⟩ := h.above hf
  cases hrest with
  | here h => exact ⟨a, s, s', ha, hs, h, ha'⟩

theorem Edited.imp {s : R} (h : L.Edited P p r r') (hf : L.folder e = some r) (ha : L.Resolves e p (.ok a))
    (hs : L.folder a = some s) (hP : ∀ s', P s s' → P' s s') : L.Edited P' p r r' := by
  induction h generalizing e with
  | here h =>
    cases ha
    rw [hf, Option.some.injEq] at hs
    subst hs
    exact .here (hP _ h)
  | deeper hd hn hf' _ hd' ih =>
    rcases (resolves_cons hf hd).mp ha with ⟨-, ha⟩ | ⟨b, hn', ha⟩
    · simp at ha
    · rw [hn, Option.some.injEq] at hn'
      subst hn'
      exact .deeper hd hn hf' (ih hf' ha) hd'

theorem Edited.aside {y : Option E} (h : L.Edited (L.Rebound n y) p r r')
    (hf : L.folder e = some r) (hq : ¬ p ++ [n] <+: q) (hq' : ¬ q <+: p ++ [n])
    (hx : L.Resolves e q x) : L.Resolves (L.link e r') q x := by
  induction h generalizing e q with
  | here h =>
    obtain ⟨d, d', hd, hd', -, hother⟩ := h
    cases q with
    | nil => exact absurd List.nil_prefix hq'
    | cons m ms =>
      have hm : m ≠ n := by
        intro hmn
        apply hq
        simp [hmn]
      exact hx.relink hf hd hd' (hother m hm)
  | @deeper r r' s s' d c m ms hd hn hf' h hd' ih =>
    cases q with
    | nil => exact absurd List.nil_prefix hq'
    | cons k ks =>
      by_cases hk : k = m
      · subst hk
        simp only [List.cons_append, List.cons_prefix_cons, true_and] at hq hq'
        rcases (resolves_cons hf hd).mp hx with ⟨hn', -⟩ | ⟨a, hn', hx⟩
        · simp [hn] at hn'
        · rw [hn, Option.some.injEq] at hn'
          subst hn'
          exact .step (L.folder_link e _ _ hf) hd' (L.find_relink _ _ _ _ hn) (ih hf' hq hq' hx)
      · exact hx.relink hf hd hd' (L.find_relink_of_ne _ _ _ _ hk)

theorem Edited.at_bound (h : L.Edited (L.Rebound n (some a)) p r r') (hf : L.folder e = some r)
    (hx : L.Resolves a q x) : L.Resolves (L.link e r') (p ++ n :: q) x := by
  obtain ⟨b, s, s', -, hs, ⟨d, d', -, hd', hn, -⟩, hb'⟩ := h.target hf
  exact hb'.append (.step (L.folder_link b s s' hs) hd' hn hx)

theorem Edited.at_removed (h : L.Edited (L.Rebound n none) p r r') (hf : L.folder e = some r) :
    L.Resolves (L.link e r') (p ++ n :: q) (.error (.missing n)) := by
  obtain ⟨b, s, s', -, hs, ⟨d, d', -, hd', hn, -⟩, hb'⟩ := h.target hf
  exact hb'.append (.missing (L.folder_link b s s' hs) hd' hn)

end Edit

section Trees

variable {Q Q' : D → Prop} {s : R}

theorem Tree.mono (hL : L.Extends L') (hQ : ∀ d, Q d → Q' d) (h : L.Tree Q r) : L'.Tree Q' r := by
  induction h with
  | intro hd hq _ ih =>
    refine .intro (hL.contents _ _ hd) (hQ _ hq) (fun n e s hn hf => ?_)
    rw [hL.find] at hn
    rw [hL.folder] at hf
    exact ih n e s hn hf

theorem Tree.resolves (hf : L.folder e = some r) (h : L.Tree Q r) (p : List N) : ∃ x, L.Resolves e p x := by
  induction p generalizing e r with
  | nil => exact ⟨_, .here e⟩
  | cons n ns ih =>
    cases h with
    | @intro _ d hd _ hsub =>
      cases hn : L.find d n with
      | none => exact ⟨_, .missing hf hd hn⟩
      | some a =>
        cases ha : L.folder a with
        | some s =>
          obtain ⟨x, hx⟩ := ih ha (hsub n a s hn ha)
          exact ⟨x, .step hf hd hn hx⟩
        | none =>
          cases ns with
          | nil => exact ⟨_, .step hf hd hn (.here a)⟩
          | cons m ms => exact ⟨_, .step hf hd hn (.notFolder ha)⟩

theorem Tree.of_resolves (hf : L.folder e = some r) (h : L.Tree Q r) (hx : L.Resolves e p (.ok a))
    (ha : L.folder a = some s) : L.Tree Q s := by
  induction p generalizing e r with
  | nil =>
    cases hx
    rw [hf, Option.some.injEq] at ha
    exact ha ▸ h
  | cons n ns ih =>
    cases h with
    | intro hd _ hsub =>
      rcases (resolves_cons hf hd).mp hx with ⟨-, hx⟩ | ⟨b, hn, hx⟩
      · simp at hx
      · cases hb : L.folder b with
        | some t => exact ih hb (hsub n b t hn hb) hx
        | none =>
          cases hx with
          | here => simp [ha] at hb
          | step hb' => simp [hb] at hb'

theorem Edited.tree (hP : ∀ s s', P s s' → L.Tree Q s → L.Tree Q s')
    (hQ : ∀ d n e s, Q d → L.find d n = some e → Q (L.relink d n s))
    (h : L.Edited P p r r') (ht : L.Tree Q r) : L.Tree Q r' := by
  induction h with
  | here h => exact hP _ _ h ht
  | @deeper r r' s s' d e n ns hd hn hf _ hd' ih =>
    cases ht with
    | @intro _ d₀ hd₀ hq hsub =>
      rw [L.unique _ _ _ hd₀ hd] at hq hsub
      have hs' := ih (hsub n e s hn hf)
      refine .intro hd' (hQ d n e s' hq hn) (fun m a t hm ha => ?_)
      by_cases hmn : m = n
      · subst hmn
        rw [L.find_relink _ _ _ _ hn, Option.some.injEq] at hm
        rw [← hm, L.folder_link e s s' hf, Option.some.injEq] at ha
        exact ha ▸ hs'
      · rw [L.find_relink_of_ne _ _ _ _ hmn] at hm
        exact hsub m a t hm ha

end Trees

end Links

end Bpy.LinkedFolders
