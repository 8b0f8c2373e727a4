import Bpy.FileTrees

/-!
# The elements of a path

What `fs.Walk`, `Insert` and `Remove` do with a path: they clean it and split it again.
The result is the list `elems`, of names that can stand in a path.
-/
namespace Bpy.PathElements
open ByteWords FileTrees
open List

/-- The name of a file or folder that a path can lead to. -/
structure Proper (name : Bytes) : Prop where
  ne_nil : name ≠ []
  ne_dot : name ≠ ascii "."
  ne_dotdot : name ≠ ascii ".."
  noSlash : slash ∉ name

instance (name : Bytes) : Decidable (Proper name) :=
  decidable_of_iff (name ≠ [] ∧ name ≠ ascii "." ∧ name ≠ ascii ".." ∧ slash ∉ name)
    ⟨fun h => ⟨h.1, h.2.1, h.2.2.1, h.2.2.2⟩, fun h => ⟨h.ne_nil, h.ne_dot, h.ne_dotdot, h.noSlash⟩⟩

/-- The elements that are left when the path is cleaned. -/
def elems (p : Bytes) : List Bytes := (splitPath (rooted p)).foldl cleanStep []

section Split

theorem splitPath_slash (p : Bytes) : splitPath (slash :: p) = [] :: splitPath p := by
  simp [splitPath, splitOn_cons_eq_if_modifyHead]

theorem joinPath_splitPath (p : Bytes) : joinPath (splitPath p) = p :=
  intercalate_splitOn slash

theorem splitPath_joinPath {es : List Bytes} (hs : ∀ e ∈ es, slash ∉ e) (hne : es ≠ []) :
    splitPath (joinPath es) = es :=
  splitOn_intercalate slash hs hne

theorem slash_notMem_of_mem_splitPath {p e : Bytes} (he : e ∈ splitPath p) : slash ∉ e := by
  induction p generalizing e with
  | nil =>
    simp only [splitPath, splitOn_nil, mem_singleton] at he
    simp [he]
  | cons b p ih =>
    simp only [splitPath, splitOn_cons_eq_if_modifyHead] at he ih
    split at he
    · rcases mem_cons.mp he with rfl | he
      · simp
      · exact ih he
    · rename_i hb
      cases hsplit : splitOn slash p with
      | nil => simp [hsplit] at he
      | cons a as =>
        rw [hsplit] at he ih
        rcases mem_cons.mp he with rfl | he
        · have ha := ih mem_cons_self
          simp only [beq_iff_eq] at hb
          simp [ha, Ne.symm hb]
        · exact ih (mem_cons_of_mem a he)

theorem joinPath_append {es : List Bytes} (hne : es ≠ []) (e : Bytes) :
    joinPath (es ++ [e]) = joinPath es ++ slash :: e := by
  induction es with
  | nil => exact absurd rfl hne
  | cons x es ih =>
    cases es with
    | nil => simp [joinPath]
    | cons y es =>
      have hrest := ih (by simp)
      simp only [joinPath, cons_append, intercalate_cons_cons, append_assoc] at hrest ⊢
      rw [hrest]

end Split

section Clean

variable {out es : List Bytes}

theorem cleanStep_proper {e : Bytes} (he : Proper e) : cleanStep out e = out ++ [e] := by
  simp [cleanStep, he.ne_nil, he.ne_dot, he.ne_dotdot]

theorem foldl_cleanStep_proper (hes : ∀ e ∈ es, Proper e) : es.foldl cleanStep out = out ++ es := by
  induction es generalizing out with
  | nil => simp
  | cons e es ih =>
    rw [foldl_cons, cleanStep_proper (hes e mem_cons_self),
      ih (fun x hx => hes x (mem_cons_of_mem e hx)), append_assoc, singleton_append]

theorem proper_foldl_cleanStep (hout : ∀ e ∈ out, Proper e) (hes : ∀ e ∈ es, slash ∉ e) :
    ∀ e ∈ es.foldl cleanStep out, Proper e := by
  induction es generalizing out with
  | nil => exact hout
  | cons e es ih =>
    apply ih
    · intro x hx
      rw [cleanStep] at hx
      split at hx
      · exact hout x hx
      · split at hx
        · exact hout x (dropLast_subset _ hx)
        · rename_i hempty hdotdot
          rw [not_or] at hempty
          rcases mem_append.mp hx with hx | hx
          · exact hout x hx
          · rw [mem_singleton.mp hx]
            exact ⟨hempty.1, hempty.2, hdotdot, hes e mem_cons_self⟩
    · intro x hx
      exact hes x (mem_cons_of_mem e hx)

theorem proper_elems (p : Bytes) : ∀ e ∈ elems p, Proper e :=
  proper_foldl_cleanStep (by simp) (fun _ he => slash_notMem_of_mem_splitPath he)

theorem clean_rooted (p : Bytes) : clean (rooted p) = slash :: joinPath (elems p) := rfl

variable (hes : ∀ e ∈ es, Proper e)
include hes

theorem trimLast_proper : trimLast es = es := by
  rw [trimLast, if_neg]
  intro hlast
  exact (hes [] (mem_of_getLast? hlast)).ne_nil rfl

theorem trimLast_splitPath : trimLast (splitPath (slash :: joinPath es)) = [] :: es := by
  rw [splitPath_slash]
  cases es with
  | nil => decide
  | cons e es =>
    rw [splitPath_joinPath (fun x hx => (hes x hx).noSlash) (by simp), trimLast, if_neg]
    · intro hlast
      rw [getLast?_cons_cons] at hlast
      exact (hes [] (mem_of_getLast? hlast)).ne_nil rfl

theorem trimLast_tail_splitPath : trimLast (splitPath (slash :: joinPath es)).tail = es := by
  rw [splitPath_slash, tail_cons]
  cases es with
  | nil => decide
  | cons e es =>
    rw [splitPath_joinPath (fun x hx => (hes x hx).noSlash) (by simp), trimLast_proper hes]

theorem clean_clean : clean (slash :: joinPath es) = slash :: joinPath es := by
  rw [clean, splitPath_slash, foldl_cons, show cleanStep [] [] = [] from rfl]
  cases es with
  | nil => decide
  | cons e es =>
    rw [splitPath_joinPath (fun x hx => (hes x hx).noSlash) (by simp), foldl_cleanStep_proper hes, nil_append]

theorem elems_clean : elems (slash :: joinPath es) = es := by
  have hrooted : rooted (slash :: joinPath es) = slash :: joinPath es := rfl
  have htrim := trimLast_tail_splitPath (proper_elems (slash :: joinPath es))
  rw [← clean_rooted, hrooted, clean_clean hes, trimLast_tail_splitPath hes] at htrim
  exact htrim.symm

end Clean

section Dir

/-- The elements of `path.Dir` of a path with a slash in front. -/
def dirElems (p : Bytes) : List Bytes := (splitPath (rooted p)).dropLast.foldl cleanStep []

theorem proper_dirElems (p : Bytes) : ∀ e ∈ dirElems p, Proper e :=
  proper_foldl_cleanStep (by simp) (fun _ he => slash_notMem_of_mem_splitPath (dropLast_subset _ he))

theorem exists_rooted (p : Bytes) : ∃ q, rooted p = slash :: q := by
  rw [rooted]
  split
  · rename_i h
    cases p with
    | nil => simp at h
    | cons b q =>
      simp only [head?_cons, Option.some.injEq] at h
      exact ⟨q, by rw [h]⟩
  · exact ⟨p, rfl⟩

theorem dropLast_splitPath_ne_nil (p : Bytes) : (splitPath (rooted p)).dropLast ≠ [] := by
  obtain ⟨q, hq⟩ := exists_rooted p
  have hne : splitPath q ≠ [] := splitOn_ne_nil _ _
  rw [hq, splitPath_slash, dropLast_cons_of_ne_nil hne]
  simp

theorem dir_rooted (p : Bytes) : dir (rooted p) = slash :: joinPath (dirElems p) := by
  have hs : ∀ e ∈ (splitPath (rooted p)).dropLast ++ [[]], slash ∉ e := by
    intro e he
    rcases mem_append.mp he with he | he
    · exact slash_notMem_of_mem_splitPath (dropLast_subset _ he)
    · simp [mem_singleton.mp he]
  rw [dir, ← joinPath_append (dropLast_splitPath_ne_nil p), clean, splitPath_joinPath hs (by simp), foldl_append]
  rfl

theorem base_eq_getLast (p : Bytes) : splitPath (rooted p) = (splitPath (rooted p)).dropLast ++ [base (rooted p)] := by
  have hne : splitPath (rooted p) ≠ [] := splitOn_ne_nil _ _
  rw [base, getLastD_eq_getLast?, getLast?_eq_some_getLast hne, Option.getD_some,
    dropLast_append_getLast hne]

theorem elems_eq_cleanStep (p : Bytes) : elems p = cleanStep (dirElems p) (base (rooted p)) := by
  rw [elems, base_eq_getLast, foldl_append]
  rfl

theorem splitPath_append (p x : Bytes) : splitPath (p ++ slash :: x) = splitPath p ++ splitPath x :=
  splitOnP_append_cons p x (by simp)

theorem elems_join (p x : Bytes) : elems (p ++ slash :: x) = (splitPath x).foldl cleanStep (elems p) := by
  cases p with
  | nil =>
    rw [nil_append, elems, show rooted (slash :: x) = slash :: x from rfl, splitPath_slash, foldl_cons]
    rfl
  | cons b p =>
    have hrooted : rooted (b :: p ++ slash :: x) = rooted (b :: p) ++ slash :: x := by
      rw [rooted, rooted, cons_append, head?_cons, head?_cons]
      split
      · rfl
      · rfl
    rw [elems, hrooted, splitPath_append, foldl_append]
    rfl

theorem elems_rooted (p : Bytes) : elems (rooted p) = elems p := by
  obtain ⟨q, hq⟩ := exists_rooted p
  rw [elems, elems, hq]
  rfl

theorem elems_join_proper {name : Bytes} (p : Bytes) (hname : Proper name) :
    elems (p ++ slash :: name) = elems p ++ [name] := by
  have hsingle : splitPath (joinPath [name]) = [name] := splitPath_joinPath (by simpa using hname.noSlash) (by simp)
  rw [elems_join, show name = joinPath [name] by simp [joinPath], hsingle]
  simp only [joinPath, intercalate_singleton]
  exact cleanStep_proper hname

theorem noSlash_base (p : Bytes) : slash ∉ base (rooted p) := by
  apply slash_notMem_of_mem_splitPath (p := rooted p)
  rw [base_eq_getLast p]
  simp

theorem base_eq_nil_iff (p : Bytes) : base (rooted p) = [] ↔ (rooted p).getLast? = some slash := by
  have hsplit : rooted p = joinPath (splitPath (rooted p)).dropLast ++ slash :: base (rooted p) := by
    rw [← joinPath_append (dropLast_splitPath_ne_nil p), ← base_eq_getLast, joinPath_splitPath]
  have hlast : (rooted p).getLast? = (slash :: base (rooted p)).getLast? := by
    nth_rewrite 1 [hsplit]
    exact getLast?_append_cons _ _ _
  constructor
  · intro h
    rw [hlast, h]
    rfl
  · intro h
    by_contra hne
    obtain ⟨b, bs, hb⟩ := exists_cons_of_ne_nil hne
    rw [hlast, hb, getLast?_cons_cons, ← hb] at h
    exact noSlash_base p (mem_of_getLast? h)

theorem elems_eq_append {p : Bytes} (hbase : Proper (base (rooted p))) : elems p = dirElems p ++ [base (rooted p)] := by
  rw [elems_eq_cleanStep, cleanStep_proper hbase]

theorem proper_base_of_clean {p : Bytes} (habs : p.head? = some slash) (hclean : clean p = p)
    (hroot : p ≠ [slash]) : Proper (base (rooted p)) := by
  have hrooted : rooted p = p := if_pos habs
  have hp : slash :: joinPath (elems p) = p := by rw [← clean_rooted, hrooted, hclean]
  have hne : elems p ≠ [] := by
    intro h
    rw [h] at hp
    exact hroot hp.symm
  have hsplit : splitPath p = [] :: elems p := by
    nth_rewrite 1 [← hp]
    rw [splitPath_slash, splitPath_joinPath (fun e he => (proper_elems p e he).noSlash) hne]
  obtain ⟨e, es, he⟩ := exists_cons_of_ne_nil hne
  apply proper_elems p
  rw [base, hrooted, hsplit, he, getLastD_eq_getLast?, getLast?_cons_cons,
    getLast?_eq_some_getLast (by simp), Option.getD_some]
  exact getLast_mem _

end Dir

end Bpy.PathElements
