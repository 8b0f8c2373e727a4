import Bpy.TreeInsert

/-!
# When `fs.Move` loses nothing

`Move` is `Copy` and then `Remove` in the tree that has the copy. `Move` keeps what it
moves unless the destination is below the source, a folder hides the new file, or the
new name is `.` or `..`, which `Walk` takes for a direction.
-/
namespace Bpy.TreeMove
open ByteWords InteractionPrograms ContentStore HashTreeWriter HashTreeStreams Directories Method
open FileTrees PathElements LinkedFolders ObjectGraph DirTrees TreeEdits TreeInsert
open List

variable {src dst name : Bytes} {path : List Bytes} {sha256 : Bytes → Hash} {stored : Hash → Bytes → Prop}
  {hfun : Functional stored} {e : DirEnt} {mode : UInt32} {t t₁ t₂ : HTree}

section Destination

/-- The destination path: `dst`, or `dst` joined with the name of `src` if it ends in a
slash. -/
def destination (src dst : Bytes) : Bytes :=
  if (rooted dst).getLast? = some slash then rooted dst ++ base (clean (rooted src)) else dst

theorem base_clean (hsrc : elems src = path ++ [name]) : base (clean (rooted src)) = name := by
  have hproper := proper_elems src
  rw [clean_rooted, base, splitPath_slash,
    splitPath_joinPath (fun e he => (hproper e he).noSlash) (by simp [hsrc]), hsrc,
    ← cons_append, getLastD_eq_getLast?, getLast?_concat, Option.getD_some]

theorem elems_append_name (hslash : (rooted dst).getLast? = some slash) (hname : Proper name) :
    elems (rooted dst ++ name) = elems dst ++ [name] := by
  obtain ⟨p, hp⟩ := getLast?_eq_some_iff.mp hslash
  have hold : elems dst = elems p := by
    rw [← elems_rooted, hp, elems_join]
    rfl
  rw [hp, hold, append_assoc, singleton_append, elems_join_proper p hname]

theorem elems_destination {e : DirEnt} (hsrc : elems src = path ++ [name]) (he : e.entName = name)
    (hdot : base (rooted dst) ≠ ascii ".") (hdotdot : base (rooted dst) ≠ ascii "..") :
    Proper (renamed dst e).entName ∧ elems (destination src dst) = dirElems dst ++ [(renamed dst e).entName] := by
  have hproper : Proper name := proper_elems src name (by simp [hsrc])
  by_cases hbase : base (rooted dst) = []
  · have hslash := (base_eq_nil_iff dst).mp hbase
    have hdir : elems dst = dirElems dst := by
      rw [elems_eq_cleanStep, hbase]
      rfl
    rw [renamed, if_pos hbase, destination, if_pos hslash, base_clean hsrc,
      elems_append_name hslash hproper, hdir, he]
    exact ⟨hproper, rfl⟩
  · have hslash : ¬ (rooted dst).getLast? = some slash := fun h => hbase ((base_eq_nil_iff dst).mpr h)
    have hnew : Proper (base (rooted dst)) := ⟨hbase, hdot, hdotdot, noSlash_base dst⟩
    rw [renamed, if_neg hbase, destination, if_neg hslash, elems_eq_append hnew]
    exact ⟨hnew, rfl⟩

theorem elems_destination_prefix (src : Bytes) (h : base (rooted dst) = ascii "." ∨ base (rooted dst) = ascii "..") :
    elems (destination src dst) <+: dirElems dst := by
  have hbase : base (rooted dst) ≠ [] := by
    rcases h with h | h <;> simp [h, ascii]
  have hslash : ¬ (rooted dst).getLast? = some slash := fun h => hbase ((base_eq_nil_iff dst).mpr h)
  rw [destination, if_neg hslash, elems_eq_cleanStep]
  rcases h with h | h
  · simp [cleanStep, h]
  · have hne : ascii ".." ≠ ascii "." := by decide
    simp only [cleanStep, h, hne, or_false, if_true]
    split
    · exact prefix_rfl
    · exact dropLast_prefix _

end Destination

section Removed

variable {u u' : HTree} {d : Listing}

theorem findEnt_without_self (ents : List DirEnt) : findEnt (without name ents) name = none := by
  simp [findEnt, without]

theorem findEnt_without_of_ne {m : Bytes} (ents : List DirEnt) (hm : m ≠ name) :
    findEnt (without name ents) m = findEnt ents m := by
  induction ents with
  | nil => rfl
  | cons a ents ih =>
    by_cases ha : a.entName = name
    · have hskip : without name (a :: ents) = without name ents := by simp [without, ha]
      rw [hskip, ih, findEnt_cons_of_ne]
      exact fun h => hm (h.symm.trans ha)
    · have hkeep : without name (a :: ents) = a :: without name ents := by simp [without, ha]
      rw [hkeep]
      by_cases ham : a.entName = m
      · rw [findEnt_cons_self ham, findEnt_cons_self ham]
      · rw [findEnt_cons_of_ne ham, findEnt_cons_of_ne ham, ih]

theorem listing_of_removed (hfun : Functional stored) (h : Removed sha256 name stored u u')
    (hd : (links hfun).contents u d) :
    (links hfun).contents u' ⟨d.mode, without name d.ents⟩ ∧
      listingTree sha256 d.mode (without name d.ents) = .ok u' := by
  obtain ⟨t, mode, ents, ht, hf, hf', hlist⟩ := h
  rw [(links hfun).unique _ _ _ hd (hf.listing hfun ht)]
  exact ⟨hf'.listing hfun rfl, hlist⟩

theorem rebound_of_removed (hfun : Functional stored) (h : Removed sha256 name stored u u') :
    (links hfun).Rebound name none u u' := by
  obtain ⟨t, mode, ents, ht, hf, -⟩ := id h
  have hd := hf.listing hfun ht
  exact ⟨_, _, hd, (listing_of_removed hfun h hd).1, findEnt_without_self _, fun m hm => findEnt_without_of_ne _ hm⟩

end Removed

section Copies

/-- What a call of `Insert` that returned has done to a tree with proper and distinct names. -/
structure Copies (hfun : Functional stored) (dst : Bytes) (e : DirEnt) (t t₁ : HTree) : Prop where
  tree : (links hfun).Tree (fun d => Named d.ents) t
  inserted : (links hfun).Edited (Inserted (renamed dst e) stored) (dirElems dst) t t₁

theorem folder_rootEnt (hfun : Functional stored) (mode : UInt32) (t : HTree) :
    (links hfun).folder (rootEnt mode t) = some t :=
  folder_eq_some (isDir_rootEnt mode t)

theorem isDir_renamed (dst : Bytes) (e : DirEnt) : (renamed dst e).isDir = e.isDir := by
  rw [renamed]
  split <;> rfl

theorem proper_of_resolves {e a : DirEnt} {u : HTree} {p : List Bytes}
    (hu : (links hfun).folder e = some u) (htree : (links hfun).Tree (fun d => Named d.ents) u)
    (h : (links hfun).Resolves e p (.ok a)) : ∀ n ∈ p, Proper n := by
  induction p generalizing e u with
  | nil => simp
  | cons n ns ih =>
    cases htree with
    | intro hd hq hsub =>
      rcases (Links.resolves_cons hu hd).mp h with ⟨-, hx⟩ | ⟨b, hn, hrest⟩
      · simp at hx
      · obtain ⟨hmem, hname⟩ := mem_of_findEnt hn
        have hproper : Proper n := hname ▸ hq.proper b hmem
        intro m hm
        rcases mem_cons.mp hm with rfl | hm
        · exact hproper
        · cases hb : (links hfun).folder b with
          | some v => exact ih hb (hsub n b v hn hb) hrest m hm
          | none =>
            cases hrest with
            | here => simp at hm
            | step hb' => simp [hb] at hb'

theorem not_same_entry {g a : DirEnt} {path : List Bytes} {n : Bytes}
    (htree : e.isDir = true → (links hfun).Tree (fun d => Named d.ents) e.htree) (hbad : ¬ Proper n) (hmem : n ∈ path)
    (hg : (links hfun).Resolves g path (.ok a)) : ¬ (g.htree = e.htree ∧ g.entMode = e.entMode) := by
  intro hsame
  cases hg with
  | here => cases hmem
  | step hf hd hn hrest =>
    obtain ⟨hdir, rfl⟩ := isDir_of_folder hf
    have hedir : e.isDir = true := by
      rw [DirEnt.isDir, ← hsame.2]
      exact hdir
    rw [hsame.1] at hd
    have hpath := proper_of_resolves (folder_eq_some hedir) (htree hedir) (.step (folder_eq_some hedir) hd hn hrest)
    exact hbad (hpath n hmem)

namespace Copies

variable (h : Copies hfun dst e t t₁)
include h

theorem folder (mode : UInt32) :
    ∃ a u u' d, (links hfun).Resolves (rootEnt mode t) (dirElems dst) (.ok a) ∧
      (links hfun).folder a = some u ∧ Inserted (renamed dst e) stored u u' ∧
      (links hfun).contents u d ∧ Named d.ents ∧
      ∀ n f, (links hfun).Resolves (rootEnt mode t) (dirElems dst ++ [n]) (.ok f) ↔ findEnt d.ents n = some f := by
  obtain ⟨a, u, u', ha, hu, hins, -⟩ := h.inserted.target (folder_rootEnt hfun mode t)
  have htree := h.tree.of_resolves (folder_rootEnt hfun mode t) ha hu
  cases htree with
  | @intro _ d hd hq _ =>
    refine ⟨a, u, u', d, ha, hu, hins, hd, hq, fun n f => ⟨fun hf => ?_, fun hf => ?_⟩⟩
    · obtain ⟨b, r, d', c, hb, hr, hd', hc, hrest⟩ := hf.of_append
      cases hrest
      have hab := ha.unique hb
      simp only [Except.ok.injEq] at hab
      rw [← hab, hu, Option.some.injEq] at hr
      subst hr
      rw [(links hfun).unique _ _ _ hd hd']
      exact hc
    · exact ha.append (.step hu hd hf (.here f))

theorem kinds_differ {f : DirEnt}
    (hf : (links hfun).Resolves (rootEnt mode t) (dirElems dst ++ [(renamed dst e).entName]) (.ok f)) :
    e.isDir ≠ f.isDir := by
  obtain ⟨a, u, u', d, -, -, hins, hd, -, hiff⟩ := h.folder mode
  obtain ⟨hmem, hname⟩ := mem_of_findEnt ((hiff _ f).mp hf)
  have hapart := apart_of_inserted hfun hins hd hmem
  rw [← isDir_renamed dst e]
  exact fun hkind => hapart hkind hname.symm

theorem bound (hfree : ∀ f, (links hfun).Resolves (rootEnt mode t) (dirElems dst ++ [(renamed dst e).entName])
      (.ok f) → e.isDir = false → f.isDir = false) :
    (links hfun).Edited ((links hfun).Rebound (renamed dst e).entName (some (renamed dst e)))
      (dirElems dst) t t₁ := by
  obtain ⟨a, u, u', d, ha, hu, hins, hd, -, hiff⟩ := h.folder mode
  apply h.inserted.imp (folder_rootEnt hfun mode t) ha hu
  intro s' hins'
  apply rebound_of_inserted hfun hins' hd
  intro f hf
  have hkinds := h.kinds_differ ((hiff _ f).mpr hf)
  have hfile := hfree f ((hiff _ f).mpr hf)
  rw [Before, less_eq_false_iff, isDir_renamed]
  left
  cases he : e.isDir with
  | true =>
    rw [he] at hkinds
    exact ⟨rfl, by simpa using hkinds.symm⟩
  | false =>
    rw [he, hfile he] at hkinds
    exact absurd rfl hkinds

theorem hidden {f : DirEnt}
    (hf : (links hfun).Resolves (rootEnt mode t) (dirElems dst ++ [(renamed dst e).entName]) (.ok f))
    (hfile : e.isDir = false) (hdir : f.isDir = true) :
    (links hfun).Edited ((links hfun).Rebound (renamed dst e).entName (some f)) (dirElems dst) t t₁ := by
  obtain ⟨a, u, u', d, ha, hu, hins, hd, -, hiff⟩ := h.folder mode
  apply h.inserted.imp (folder_rootEnt hfun mode t) ha hu
  intro s' hins'
  apply rebound_of_hidden hfun hins' hd ((hiff _ f).mp hf)
  rw [Before, less_eq_false_iff, isDir_renamed, hfile, hdir]
  simp

end Copies

end Copies

section Moves

/-- What a call of `Move` that returned has done to the trees: `t` was the root, `t₁` has
the copy and `t₂` is the result. -/
structure Moves (sha256 : Bytes → Hash) (hfun : Functional stored) (src dst : Bytes) (e : DirEnt)
    (mode : UInt32) (t t₁ t₂ : HTree) (path : List Bytes) (name : Bytes) : Prop where
  elems_src : elems src = path ++ [name]
  tree : (links hfun).Tree (fun d => Named d.ents) t
  found : (links hfun).Resolves (rootEnt mode t) (elems src) (.ok e)
  inserted : (links hfun).Edited (Inserted (renamed dst e) stored) (dirElems dst) t t₁
  removed : (links hfun).Edited (Removed sha256 name stored) path t₁ t₂

variable {q : List Bytes} {x : Except (Failure Bytes DirEnt) DirEnt}

namespace Moves

section

variable (h : Moves sha256 hfun src dst e mode t t₁ t₂ path name)
include h

theorem entName : e.entName = name := by
  have hfound := h.found
  rw [h.elems_src] at hfound
  obtain ⟨b, r, d, c, -, -, -, hc, hrest⟩ := hfound.of_append
  cases hrest
  exact (mem_of_findEnt hc).2

theorem copies : Copies hfun dst e t t₁ :=
  ⟨h.tree, h.inserted⟩

theorem unbound : (links hfun).Edited ((links hfun).Rebound name none) path t₁ t₂ :=
  h.removed.mono (.refl _) (fun _ _ hr => rebound_of_removed hfun hr)

theorem gone (q : List Bytes) : (links hfun).Resolves (rootEnt mode t₂) (elems src ++ q) (.error (.missing name)) := by
  have hgone := h.unbound.at_removed (q := q) (folder_rootEnt hfun mode t₁)
  rwa [h.elems_src, append_assoc, singleton_append]

theorem survives (hq : ¬ elems src <+: q) (hq' : ¬ q <+: elems src) (hx : (links hfun).Resolves (rootEnt mode t₁) q x) :
    (links hfun).Resolves (rootEnt mode t₂) q x := by
  rw [h.elems_src] at hq hq'
  have hsame := h.unbound.aside (folder_rootEnt hfun mode t₁) hq hq' hx
  exact hsame

theorem arrives (hout : ¬ elems src <+: dirElems dst ++ [(renamed dst e).entName])
    (hfree : ∀ f, (links hfun).Resolves (rootEnt mode t) (dirElems dst ++ [(renamed dst e).entName])
      (.ok f) → e.isDir = false → f.isDir = false) :
    (links hfun).Resolves (rootEnt mode t₂) (dirElems dst ++ [(renamed dst e).entName]) (.ok (renamed dst e)) ∧
      ∀ q x, ¬ elems src <+: q → ¬ q <+: elems src → ¬ dirElems dst ++ [(renamed dst e).entName] <+: q →
        ¬ q <+: dirElems dst ++ [(renamed dst e).entName] →
        (links hfun).Resolves (rootEnt mode t) q x → (links hfun).Resolves (rootEnt mode t₂) q x := by
  have habove : ¬ dirElems dst ++ [(renamed dst e).entName] <+: elems src := by
    rintro ⟨rest, hrest⟩
    cases rest with
    | nil =>
      rw [append_nil] at hrest
      exact hout (hrest ▸ prefix_rfl)
    | cons m ms =>
      have hfound := h.found
      rw [← hrest] at hfound
      obtain ⟨f, r, d, c, hf, hr, -⟩ := hfound.of_append
      obtain ⟨hdir, -⟩ := isDir_of_folder hr
      have hkind := h.copies.kinds_differ hf
      have hfile := hfree f hf
      rw [hdir] at hkind hfile
      cases he : e.isDir with
      | true => exact hkind he
      | false => simp [he] at hfile
  have hbound := h.copies.bound hfree
  constructor
  · have hcopy := hbound.at_bound (folder_rootEnt hfun mode t) (.here _)
    exact h.survives hout habove hcopy
  · intro q x hq hq' hd hd' hx
    have hcopy := hbound.aside (folder_rootEnt hfun mode t) hd hd' hx
    exact h.survives hq hq' hcopy

theorem still_folder {f : DirEnt} (hout : ¬ elems src <+: dirElems dst ++ [(renamed dst e).entName])
    (hf : (links hfun).Resolves (rootEnt mode t) (dirElems dst ++ [(renamed dst e).entName]) (.ok f))
    (hfile : e.isDir = false) (hdir : f.isDir = true) :
    ∃ g, (links hfun).Resolves (rootEnt mode t₂) (dirElems dst ++ [(renamed dst e).entName]) (.ok g) ∧
      g.isDir = true := by
  have hcopy := (h.copies.hidden hf hfile hdir).at_bound (folder_rootEnt hfun mode t) (.here f)
  by_cases habove : dirElems dst ++ [(renamed dst e).entName] <+: path
  · obtain ⟨rest, hrest⟩ := habove
    have hremoved := h.removed
    rw [← hrest] at hremoved
    obtain ⟨a, s, s', ha, hs, -, ha'⟩ := hremoved.above (folder_rootEnt hfun mode t₁)
    have hsame := hcopy.unique ha
    simp only [Except.ok.injEq] at hsame
    subst hsame
    exact ⟨_, ha', hdir⟩
  · refine ⟨f, h.survives hout ?_ hcopy, hdir⟩
    rw [h.elems_src]
    intro hpre
    rcases prefix_concat_iff.mp hpre with heq | hpre
    · apply hout
      rw [h.elems_src, heq]
    · exact habove hpre

/-- An entry with the name `.` or `..` is there in the result, unless it was removed with its
folder. -/
theorem dotted (hbad : ¬ Proper (renamed dst e).entName) (hout : ¬ elems src <+: dirElems dst) :
    (links hfun).Resolves (rootEnt mode t₂) (dirElems dst ++ [(renamed dst e).entName]) (.ok (renamed dst e)) := by
  have hbound := h.copies.bound (fun f hf => absurd
    (proper_of_resolves (folder_rootEnt hfun mode t) h.tree hf _ (by simp)) hbad)
  have hcopy := hbound.at_bound (folder_rootEnt hfun mode t) (.here _)
  have hsrc : (renamed dst e).entName ∉ elems src := fun hmem => hbad (proper_elems src _ hmem)
  refine h.survives ?_ ?_ hcopy
  · intro hpre
    rcases prefix_concat_iff.mp hpre with heq | hpre
    · exact hsrc (by simp [heq])
    · exact hout hpre
  · intro hpre
    exact hsrc (hpre.subset (by simp))

theorem not_moved {a : DirEnt} {p rest : List Bytes} {n : Bytes} (hbad : ¬ Proper n)
    (hdot : (links hfun).Resolves (rootEnt mode t₂) (p ++ (rest ++ [n])) (.ok a)) :
    ∃ g, (links hfun).Resolves (rootEnt mode t₂) p (.ok g) ∧ ¬ (g.htree = e.htree ∧ g.entMode = e.entMode) := by
  obtain ⟨m, ms, hms⟩ := exists_cons_of_ne_nil (show rest ++ [n] ≠ [] by simp)
  have hmem : n ∈ m :: ms := by simp [← hms]
  rw [hms] at hdot
  obtain ⟨g, r, d, c, hg, hr, hd, hc, hrest⟩ := hdot.of_append
  refine ⟨g, hg, not_same_entry ?_ hbad hmem (.step hr hd hc hrest)⟩
  intro hedir
  exact h.tree.of_resolves (folder_rootEnt hfun mode t) h.found (folder_eq_some hedir)

end

theorem without_setTree (name : Bytes) (u : HTree) (ents : List DirEnt) :
    without name (setTree name u ents) = without name ents := by
  induction ents with
  | nil => rfl
  | cons a ents ih =>
    rw [setTree]
    split
    · rename_i ha
      simp [without, ha]
    · rename_i ha
      simp only [without, filter_cons] at ih ⊢
      rw [ih]

theorem leftover (h : Moves sha256 hfun src dst e mode t t₁ t₂ path name) (hself : dirElems dst = elems src) :
    ∃ a d u₂, (links hfun).Resolves (rootEnt mode t) path (.ok a) ∧ a.isDir = true ∧ (links hfun).contents a.htree d ∧
      listingTree sha256 d.mode (without name d.ents) = .ok u₂ ∧
      (links hfun).Resolves (rootEnt mode t₂) path (.ok { a with htree := u₂ }) := by
  have hins := h.inserted
  rw [hself, h.elems_src] at hins
  obtain ⟨a, u, u₁, ha, hu, hdeep, ha₁⟩ := hins.above (folder_rootEnt hfun mode t)
  obtain ⟨hdir, rfl⟩ := isDir_of_folder hu
  cases hdeep with
  | @deeper _ _ v v' d c _ _ hd hc hv _ hd' =>
    obtain ⟨b, s, s', hb, hs, hrem, hb'⟩ := h.removed.target (folder_rootEnt hfun mode t₁)
    have hsame := ha₁.unique hb
    simp only [Except.ok.injEq] at hsame
    subst hsame
    rw [(links hfun).folder_link a _ _ hu, Option.some.injEq] at hs
    subst hs
    have hlist := (listing_of_removed hfun hrem hd').2
    simp only [links, without_setTree] at hlist
    exact ⟨a, d, s', ha, hdir, hd, hlist, hb'⟩

end Moves

end Moves

section Exact

/-- `Move` loses nothing: the destination has what the source had, the source is gone, and
a path away from both leads to the same result as before. -/
structure Moved (old new : Bytes → Except GoError DirEnt) (src dst : Bytes) : Prop where
  arrived : ∃ e e', old src = .ok e ∧ new (destination src dst) = .ok e' ∧ e'.htree = e.htree ∧
    e'.entMode = e.entMode ∧ e'.entSize = e.entSize
  gone : ∀ e, new src ≠ .ok e
  others : ∀ q, ¬ elems src <+: elems q → ¬ elems q <+: elems src →
    ¬ elems (destination src dst) <+: elems q → ¬ elems q <+: elems (destination src dst) →
    new q = old q

/-- The name at the destination is a name, the destination is not the source or below it, and
a file is not moved to a folder. -/
structure Clear (old : Bytes → Except GoError DirEnt) (src dst : Bytes) : Prop where
  ne_dot : base (rooted dst) ≠ ascii "."
  ne_dotdot : base (rooted dst) ≠ ascii ".."
  outside : ¬ elems src <+: elems (destination src dst)
  free : ∀ e f, old src = .ok e → old (destination src dst) = .ok f → e.isDir = false → f.isDir = false

/-- A folder `src` is moved to `src/..`, and what is left of its parent is just what the
folder was. -/
structure Leftover (sha256 : Bytes → Hash) (old : Bytes → Except GoError DirEnt)
    (list : Hash → Except GoError (List DirEnt)) (src dst : Bytes) : Prop where
  dotdot : base (rooted dst) = ascii ".."
  itself : dirElems dst = elems src
  same : ∃ e a dot ents, old src = .ok e ∧ old dst = .ok a ∧ list a.htree.data = .ok (dot :: ents) ∧
    a.entMode = e.entMode ∧ a.entSize = e.entSize ∧
    listingTree sha256 dot.entMode (without e.entName ents) = .ok e.htree

variable {old new : Bytes → Except GoError DirEnt} {list : Hash → Except GoError (List DirEnt)}

theorem walkResult_eq_ok {x : Except (Failure Bytes DirEnt) DirEnt} {a : DirEnt}
    (h : walkResult x = .ok a) : x = .ok a := by
  cases x with
  | error failure => cases failure <;> simp [walkResult] at h
  | ok b => simpa [walkResult] using h

namespace Moves

/-- `Walk` in the tree of the root returns what the links lead to. -/
def Walks (hfun : Functional stored) (mode : UInt32) (t : HTree) (walk : Bytes → Except GoError DirEnt) :
    Prop :=
  ∀ q x, (links hfun).Resolves (rootEnt mode t) (elems q) x → walk q = walkResult x

theorem Walks.resolves {q : Bytes} {f : DirEnt} (hold : Walks hfun mode t old)
    (htree : (links hfun).Tree (fun d => Named d.ents) t) (hf : old q = .ok f) :
    (links hfun).Resolves (rootEnt mode t) (elems q) (.ok f) := by
  obtain ⟨x, hx⟩ := htree.resolves (folder_rootEnt hfun mode t) (elems q)
  rw [hold q x hx] at hf
  rwa [walkResult_eq_ok hf] at hx

section

variable (h : Moves sha256 hfun src dst e mode t t₁ t₂ path name)
include h

theorem src_gone (hnew : Walks hfun mode t₂ new)
    {q : Bytes} (hq : elems src <+: elems q) (a : DirEnt) : new q ≠ .ok a := by
  obtain ⟨rest, hrest⟩ := hq
  have hgone := h.gone rest
  rw [hrest] at hgone
  rw [hnew q _ hgone]
  simp [walkResult]

variable (hold : Walks hfun mode t old) (hnew : Walks hfun mode t₂ new)
include hold hnew

theorem moved_of_clear (hc : Clear old src dst) : Moved old new src dst := by
  obtain ⟨-, hdest⟩ := elems_destination h.elems_src h.entName hc.ne_dot hc.ne_dotdot
  have hsrc := hold src _ h.found
  have hout := hc.outside
  rw [hdest] at hout
  have hfree : ∀ f, (links hfun).Resolves (rootEnt mode t) (dirElems dst ++ [(renamed dst e).entName])
      (.ok f) → e.isDir = false → f.isDir = false := by
    intro f hf
    rw [← hdest] at hf
    exact hc.free e f hsrc (hold _ _ hf)
  obtain ⟨harrive, hothers⟩ := h.arrives hout hfree
  rw [← hdest] at harrive
  refine ⟨⟨e, renamed dst e, hsrc, hnew _ _ harrive, ?_⟩, ?_, ?_⟩
  · rw [renamed]
    split <;> exact ⟨rfl, rfl, rfl⟩
  · exact h.src_gone hnew prefix_rfl
  · intro q hq hq' hd hd'
    rw [hdest] at hd hd'
    obtain ⟨x, hx⟩ := h.tree.resolves (folder_rootEnt hfun mode t) (elems q)
    rw [hold q x hx, hnew q x (hothers _ x hq hq' hd hd' hx)]

theorem clear_of_moved (hm : Moved old new src dst) (hdot : base (rooted dst) ≠ ascii ".")
    (hdotdot : base (rooted dst) ≠ ascii "..") : Clear old src dst := by
  obtain ⟨-, hdest⟩ := elems_destination h.elems_src h.entName hdot hdotdot
  obtain ⟨a, a', ha, ha', -, hmode, -⟩ := hm.arrived
  have hsrc := hold src _ h.found
  have hout : ¬ elems src <+: elems (destination src dst) := fun hpre => h.src_gone hnew hpre a' ha'
  refine ⟨hdot, hdotdot, hout, ?_⟩
  intro e₁ f he hf hfile
  rw [ha] at he hsrc
  simp only [walkResult, Except.ok.injEq] at he hsrc
  subst he hsrc
  by_contra hdir
  rw [Bool.not_eq_false] at hdir
  have hfound := hold.resolves h.tree hf
  rw [hdest] at hfound hout
  obtain ⟨g, hg, hgdir⟩ := h.still_folder hout hfound hfile hdir
  rw [← hdest] at hg
  have hsame := hnew _ _ hg
  rw [ha'] at hsame
  simp only [walkResult, Except.ok.injEq] at hsame
  subst hsame
  rw [DirEnt.isDir, hmode, ← DirEnt.isDir, hfile] at hgdir
  simp at hgdir

end

theorem entName_dots (hbase : base (rooted dst) = ascii "." ∨ base (rooted dst) = ascii "..") :
    (renamed dst e).entName = base (rooted dst) ∧ ¬ Proper (renamed dst e).entName := by
  have hne : base (rooted dst) ≠ [] := by
    rcases hbase with h | h <;> simp [h, ascii]
  have hname : (renamed dst e).entName = base (rooted dst) := by
    rw [renamed, if_neg hne]
  refine ⟨hname, fun hproper => ?_⟩
  rw [hname] at hproper
  rcases hbase with h | h
  · exact hproper.ne_dot h
  · exact hproper.ne_dotdot h

section

variable (h : Moves sha256 hfun src dst e mode t t₁ t₂ path name)
include h

theorem not_moved_to_dots (hold : Walks hfun mode t old) (hnew : Walks hfun mode t₂ new)
    (hbase : base (rooted dst) = ascii "." ∨ base (rooted dst) = ascii "..")
    (hother : ¬ elems src <+: dirElems dst) : ¬ Moved old new src dst := by
  intro hm
  obtain ⟨-, hbad⟩ := entName_dots (e := e) hbase
  obtain ⟨rest, hrest⟩ := elems_destination_prefix src hbase
  have hdot := h.dotted hbad hother
  rw [← hrest, append_assoc] at hdot
  obtain ⟨g, hg, hne⟩ := h.not_moved hbad hdot
  obtain ⟨a, a', ha, ha', htree, hmode, -⟩ := hm.arrived
  rw [hold src _ h.found] at ha
  rw [hnew _ _ hg] at ha'
  simp only [walkResult, Except.ok.injEq] at ha ha'
  subst ha ha'
  exact hne ⟨htree, hmode⟩

theorem elems_dotdot (hbase : base (rooted dst) = ascii "..")
    (hself : dirElems dst = elems src) : destination src dst = dst ∧ elems dst = path := by
  have hne : base (rooted dst) ≠ [] := by simp [hbase, ascii]
  have hslash : ¬ (rooted dst).getLast? = some slash := fun h => hne ((base_eq_nil_iff dst).mpr h)
  have hdd : cleanStep (dirElems dst) (ascii "..") = (dirElems dst).dropLast := by
    rw [cleanStep, if_neg (by decide), if_pos rfl]
  refine ⟨if_neg hslash, ?_⟩
  rw [elems_eq_cleanStep, hbase, hdd, hself, h.elems_src, dropLast_concat]

theorem moved_iff_leftover (hold : Walks hfun mode t old) (hnew : Walks hfun mode t₂ new)
    (hlist : ∀ p a d, (links hfun).Resolves (rootEnt mode t) p (.ok a) → a.isDir = true →
      (links hfun).contents a.htree d → ∃ dot, dot.entMode = d.mode ∧ list a.htree.data = .ok (dot :: d.ents))
    (hbase : base (rooted dst) = ascii "..") (hself : dirElems dst = elems src) :
    Moved old new src dst ↔ Leftover sha256 old list src dst := by
  obtain ⟨hdst, helems⟩ := h.elems_dotdot hbase hself
  obtain ⟨a, d, u₂, ha, hdir, hd, htree, ha'⟩ := h.leftover hself
  obtain ⟨dot, hdot, hread⟩ := hlist path a d ha hdir hd
  have hsrc := hold src _ h.found
  rw [← helems] at ha ha'
  have hparent := hold dst _ ha
  have hparent' := hnew dst _ ha'
  simp only [walkResult] at hsrc hparent hparent'
  constructor
  · intro hm
    obtain ⟨e₁, e₂, he₁, he₂, htree₂, hmode, hsize⟩ := hm.arrived
    rw [hdst, hparent', Except.ok.injEq] at he₂
    rw [hsrc, Except.ok.injEq] at he₁
    subst he₁ he₂
    refine ⟨hbase, hself, e, a, dot, d.ents, hsrc, hparent, hread, hmode, hsize, ?_⟩
    rw [hdot, h.entName, htree]
    exact congrArg Except.ok htree₂
  · intro hleft
    obtain ⟨e₁, a₁, dot₁, ents₁, he₁, ha₁, hread₁, hmode, hsize, htree₁⟩ := hleft.same
    rw [hsrc, Except.ok.injEq] at he₁
    rw [hparent, Except.ok.injEq] at ha₁
    subst he₁ ha₁
    rw [hread, Except.ok.injEq, List.cons.injEq] at hread₁
    obtain ⟨rfl, rfl⟩ := hread₁
    rw [hdot, h.entName, htree, Except.ok.injEq] at htree₁
    refine ⟨⟨e, { a with htree := u₂ }, hsrc, ?_, htree₁, hmode, hsize⟩, h.src_gone hnew prefix_rfl, ?_⟩
    · rw [hdst]
      exact hparent'
    intro q hq hq' _ _
    obtain ⟨x, hx⟩ := h.tree.resolves (folder_rootEnt hfun mode t) (elems q)
    obtain ⟨-, hbad⟩ := entName_dots (e := e) (Or.inr hbase)
    have hbound := h.copies.bound (fun f hf => absurd
      (proper_of_resolves (folder_rootEnt hfun mode t) h.tree hf _ (by simp)) hbad)
    have hcopy := hbound.aside (folder_rootEnt hfun mode t) (q := elems q) (by
      intro hpre
      rw [hself] at hpre
      exact hq ((prefix_append _ _).trans hpre)) (by
      intro hpre
      rw [hself] at hpre
      rcases prefix_concat_iff.mp hpre with heq | hpre
      · exact hq (heq ▸ prefix_append _ _)
      · exact hq' hpre) hx
    rw [hold q x hx, hnew q x (h.survives hq hq' hcopy)]

end

/-- A destination with the name `.` or `..` is the source or below it, or is the parent of the
source. -/
theorem outside_or_itself (hbase : base (rooted dst) = ascii "." ∨ base (rooted dst) = ascii "..")
    (hpre : elems src <+: dirElems dst) (hout : ¬ elems src <+: elems (destination src dst)) :
    base (rooted dst) = ascii ".." ∧ dirElems dst = elems src := by
  have hne : base (rooted dst) ≠ [] := by
    rcases hbase with hb | hb <;> simp [hb, ascii]
  have hslash : ¬ (rooted dst).getLast? = some slash := fun h => hne ((base_eq_nil_iff dst).mpr h)
  rw [destination, if_neg hslash, elems_eq_cleanStep dst] at hout
  rcases hbase with hb | hb
  · rw [hb, cleanStep, if_pos (Or.inr rfl)] at hout
    exact absurd hpre hout
  · rw [hb, cleanStep, if_neg (by decide), if_pos rfl] at hout
    refine ⟨hb, ?_⟩
    rcases List.eq_nil_or_concat' (dirElems dst) with hnil | ⟨q, n, hq⟩
    · rw [hnil] at hpre ⊢
      exact (prefix_nil.mp hpre).symm
    · rw [hq] at hpre hout ⊢
      rw [dropLast_concat] at hout
      rcases prefix_concat_iff.mp hpre with heq | hpre
      · exact heq.symm
      · exact absurd hpre hout

end Moves

end Exact

section Run

variable {ω : Type} (room : ℕ → ℕ) {s s' : List Bytes} {w w' : ω}

theorem encodable_of_resolves {stored : Hash → Bytes → Prop} {hfun : Functional stored} {e a : DirEnt}
    {p : List Bytes} {n : Bytes} (h : (links hfun).Resolves e (p ++ [n]) (.ok a)) : a.Encodable := by
  obtain ⟨b, r, d, c, -, -, ⟨-, t, -, hf⟩, hc, hrest⟩ := h.of_append
  cases hrest
  exact hf.encodable _ (mem_of_findEnt hc).1

theorem copy_steps {t : HTree} {mode : UInt32} {ents : List DirEnt} {src dst : Bytes} {r : DirEnt}
    (hinj : Set.InjOn sha256 {c | c ∈ s}) (hf : Folder (Stored sha256 s) t mode ents)
    (htree : DirTree (Stored sha256 s) Named t.data)
    (hrun : exec (memStore sha256) (copy room t.data dst src) w s = (.ok r, w', s')) :
    ∃ e, (links (functional_stored hinj)).Resolves (rootEnt mode t) (elems src) (.ok e) ∧
      exec (memStore sha256) (FileTrees.insert room t.data dst e) w s = (.ok r, w', s') := by
  obtain ⟨e, w₁, s₁, hwalk, hinsert⟩ := exec_bind_eq_ok hrun
  obtain ⟨hfound, rfl, rfl⟩ := resolves_of_walk room hinj hf htree hwalk
  exact ⟨e, hfound, hinsert⟩

theorem moves_of_exec {root : Hash} {src dst : Bytes} {r : DirEnt}
    (hinj' : Set.InjOn sha256 {c | c ∈ s'}) (htree : DirTree (Stored sha256 s) Named root)
    (hrun : exec (memStore sha256) (move room root dst src) w s = (.ok r, w', s')) :
    ∃ t mode ents e t₁ path name ents', t.data = root ∧ Folder (Stored sha256 s) t mode ents ∧
      (∃ ws, s' = ws ++ s) ∧ Folder (Stored sha256 s') r.htree mode ents' ∧
      Moves sha256 (functional_stored hinj') src dst e mode t t₁ r.htree path name := by
  have hinj := injOn_of_exec hrun hinj'
  have hthere := htree
  cases hthere with
  | @intro t mode ents hf _ _ =>
    obtain ⟨copyRoot, w₁, s₁, hcopy, hremove⟩ := exec_bind_eq_ok hrun
    have hinj₁ := injOn_of_exec hremove hinj'
    obtain ⟨e, hfound, hinsert⟩ := copy_steps room hinj hf htree hcopy
    rcases List.eq_nil_or_concat' (elems src) with hnil | ⟨path, name, hsrc⟩
    · rw [remove_root room hnil] at hremove
      simp at hremove
    · have htrue : (links (functional_stored hinj)).Tree (fun _ => True) t :=
        (htree.tree _).mono (.refl _) (fun _ _ => trivial)
      have hdepth : e.htree.depth < 256 := by
        rw [hsrc] at hfound
        exact (encodable_of_resolves hfound).depth
      have hwrote := insert_edits room dst hdepth t w w₁ s s₁ copyRoot hinj hinj₁ htrue hinsert
      obtain ⟨-, ents₁, hf₁⟩ := hwrote.newRoot hinj hf rfl
      have hext := links_extends (functional_stored hinj) (functional_stored hinj₁) (stored_grows sha256 hwrote.grows)
      have hsub : (renamed dst e).isDir = true →
          (links (functional_stored hinj₁)).Tree (fun _ => True) (renamed dst e).htree := by
        intro hdir
        rw [isDir_renamed] at hdir
        have he := htrue.of_resolves (folder_rootEnt _ mode t) hfound (folder_eq_some hdir)
        rw [show (renamed dst e).htree = e.htree by rw [renamed]; split <;> rfl]
        exact he.mono hext (fun _ h => h)
      have htrue₁ := hwrote.edited.tree
        (fun _ _ hins => tree_of_inserted _ hins (fun _ _ h => h) hsub) (fun _ _ _ _ h _ => h)
        (htrue.mono hext (fun _ h => h))
      have hwrote' := remove_edits room hsrc copyRoot.htree w₁ w' s₁ s' r hinj₁ hinj' htrue₁ hremove
      obtain ⟨-, ents', hf'⟩ := hwrote'.newRoot hinj₁ hf₁ rfl
      have hst₁ := stored_grows sha256 hwrote'.grows
      have hext₁ := links_extends (functional_stored hinj₁) (functional_stored hinj') hst₁
      have hgrow : ∃ ws, s' = ws ++ s := by
        obtain ⟨ws, hws⟩ := hwrote.grows
        obtain ⟨ws', hws'⟩ := hwrote'.grows
        exact ⟨ws' ++ ws, by rw [hws', hws, append_assoc]⟩
      refine ⟨t, mode, ents, e, copyRoot.htree, path, name, ents', rfl, hf, hgrow, hf', ?_⟩
      exact ⟨hsrc, ((htree.tree _).mono hext (fun _ h => h)).mono hext₁ (fun _ h => h),
        (hfound.mono hext).mono hext₁, hwrote.edited.mono hext₁ (Inserted.mono hst₁), hwrote'.edited⟩

theorem move_iff {root : Hash} {src dst : Bytes} {r : DirEnt}
    (hinj' : Set.InjOn sha256 {c | c ∈ s'}) (htree : DirTree (Stored sha256 s) Named root)
    (hrun : exec (memStore sha256) (move room root dst src) w s = (.ok r, w', s')) :
    Moved (fun q => (exec (memStore sha256) (walk room root q) w s).1)
        (fun q => (exec (memStore sha256) (walk room r.htree.data q) w' s').1) src dst ↔
      Clear (fun q => (exec (memStore sha256) (walk room root q) w s).1) src dst ∨
      Leftover sha256 (fun q => (exec (memStore sha256) (walk room root q) w s).1)
        (fun h => (exec (memStore sha256) (readDir room h) w s).1) src dst := by
  obtain ⟨t, mode, ents, e, t₁, path, name, ents', rfl, hf, hgrow, hf', h⟩ :=
    moves_of_exec room hinj' htree hrun
  have hinj := injOn_of_exec hrun hinj'
  have hext := links_extends (functional_stored hinj) (functional_stored hinj') (stored_grows sha256 hgrow)
  have hold : Moves.Walks (functional_stored hinj') mode t
      (fun q => (exec (memStore sha256) (walk room t.data q) w s).1) := by
    intro q x hx
    exact congrArg Prod.fst (exec_walk_before room w hinj' hgrow hf htree hx)
  have hnew : Moves.Walks (functional_stored hinj') mode r.htree
      (fun q => (exec (memStore sha256) (walk room r.htree.data q) w' s').1) := by
    intro q x hx
    exact congrArg Prod.fst (exec_walk room w' hinj' hf' hx)
  have hlist : ∀ p a d, (links (functional_stored hinj')).Resolves (rootEnt mode t) p (.ok a) →
      a.isDir = true → (links (functional_stored hinj')).contents a.htree d →
      ∃ dot, dot.entMode = d.mode ∧
        (exec (memStore sha256) (readDir room a.htree.data) w s).1 = .ok (dot :: d.ents) := by
    intro p a d ha hdir hd
    obtain ⟨x, hx⟩ := (htree.tree (functional_stored hinj)).resolves (folder_rootEnt _ mode t) p
    rw [(hx.mono hext).unique ha] at hx
    cases (htree.tree _).of_resolves (folder_rootEnt _ mode t) hx (folder_eq_some hdir) with
    | intro hd₀ _ _ =>
      rw [(links _).unique _ _ _ hd (hext.contents _ _ hd₀)]
      obtain ⟨hm, u, hu, hfold⟩ := hd₀
      rw [← hu, readDir_folder room w hinj hfold]
      exact ⟨_, hm, rfl⟩
  by_cases hbase : base (rooted dst) = ascii "." ∨ base (rooted dst) = ascii ".."
  · have hclear : ¬ Clear (fun q => (exec (memStore sha256) (walk room t.data q) w s).1) src dst := by
      intro hc
      rcases hbase with hb | hb
      · exact hc.ne_dot hb
      · exact hc.ne_dotdot hb
    simp only [hclear, false_or]
    by_cases hself : base (rooted dst) = ascii ".." ∧ dirElems dst = elems src
    · exact h.moved_iff_leftover hold hnew hlist hself.1 hself.2
    · have hleft : ∀ {old list}, ¬ Leftover sha256 old list src dst :=
        fun hl => hself ⟨hl.dotdot, hl.itself⟩
      simp only [hleft, iff_false]
      by_cases hpre : elems src <+: dirElems dst
      · have hin : elems src <+: elems (destination src dst) := by
          by_contra hout
          exact hself (Moves.outside_or_itself hbase hpre hout)
        intro hm
        obtain ⟨-, a, -, ha, -⟩ := hm.arrived
        exact h.src_gone hnew hin a ha
      · exact h.not_moved_to_dots hold hnew hbase hpre
  · rw [not_or] at hbase
    have hleft : ∀ {old list}, ¬ Leftover sha256 old list src dst := fun hl => hbase.2 hl.dotdot
    simp only [hleft, or_false]
    exact ⟨fun hm => h.clear_of_moved hold hnew hm hbase.1 hbase.2, h.moved_of_clear hold hnew⟩

end Run

section Small

def oneFolder : List Bytes := [dirChunk 0 [folderEnt (ascii "a") []], dirChunk 0 []]

theorem dirTree_oneFolder :
    DirTree (Stored sumHash oneFolder) Named (sumHash (dirChunk 0 [folderEnt (ascii "a") []])) := by
  have hempty : DirTree (Stored sumHash oneFolder) Named (sumHash (dirChunk 0 [])) :=
    .intro (t := ⟨0, _⟩) (folder_dirChunk (by simp [oneFolder]) (by decide)) ⟨by simp, by simp⟩ (by simp)
  refine .intro (t := ⟨0, _⟩) (folder_dirChunk mem_cons_self (by decide +kernel)) ⟨by decide, by decide⟩ ?_
  simp only [mem_singleton, forall_eq]
  exact fun _ => hempty

/-- A folder that gets another name. -/
theorem move_iff_rename : ∃ r s',
    exec (memStore sumHash) (move id (sumHash (dirChunk 0 [folderEnt (ascii "a") []]))
      (ascii "/b") (ascii "/a")) () oneFolder = (.ok r, (), s') ∧
    Moved (fun q => (exec (memStore sumHash)
        (walk id (sumHash (dirChunk 0 [folderEnt (ascii "a") []])) q) () oneFolder).1)
      (fun q => (exec (memStore sumHash) (walk id r.htree.data q) () s').1)
      (ascii "/a") (ascii "/b") := by
  have hrun : exec (memStore sumHash) (move id (sumHash (dirChunk 0 [folderEnt (ascii "a") []]))
      (ascii "/b") (ascii "/a")) () oneFolder =
      (.ok (rootEnt 0 ⟨0, sumHash (dirChunk 0 [folderEnt (ascii "b") []])⟩), (),
        [dirChunk 0 [folderEnt (ascii "b") []],
          dirChunk 0 [folderEnt (ascii "a") [], folderEnt (ascii "b") []]] ++ oneFolder) := by
    decide +kernel
  have habsent : (exec (memStore sumHash) (walk id
      (sumHash (dirChunk 0 [folderEnt (ascii "a") []])) (destination (ascii "/a") (ascii "/b"))) ()
      oneFolder).1 = .error (.format "no such directory: %s" (ascii "b")) := by
    decide +kernel
  refine ⟨_, _, hrun, (move_iff id (injOn_of_list (by decide +kernel)) dirTree_oneFolder hrun).mpr
    (Or.inl ⟨by decide, by decide, by decide, ?_⟩)⟩
  intro e f _ hf
  rw [habsent] at hf
  cases hf

/-- A folder that is moved into itself is lost. -/
theorem move_into_itself : ∃ r s',
    exec (memStore sumHash) (move id (sumHash (dirChunk 0 [folderEnt (ascii "a") []]))
      (ascii "/a/b") (ascii "/a")) () oneFolder = (.ok r, (), s') ∧
    DirTree (Stored sumHash oneFolder) Named (sumHash (dirChunk 0 [folderEnt (ascii "a") []])) ∧
    Set.InjOn sumHash {c | c ∈ s'} ∧
    (exec (memStore sumHash) (walk id (sumHash (dirChunk 0 [folderEnt (ascii "a") []]))
      (ascii "/a")) () oneFolder).1 = .ok (folderEnt (ascii "a") []) ∧
    (exec (memStore sumHash) (walk id r.htree.data (ascii "/a/b")) () s').1 =
      .error (.format "no such directory: %s" (ascii "a")) := by
  have hrun : exec (memStore sumHash) (move id (sumHash (dirChunk 0 [folderEnt (ascii "a") []]))
      (ascii "/a/b") (ascii "/a")) () oneFolder =
      (.ok (rootEnt 0 ⟨0, sumHash (dirChunk 0 [])⟩), (),
        [dirChunk 0 [], dirChunk 0 [folderEnt (ascii "a") [folderEnt (ascii "b") []]],
          dirChunk 0 [folderEnt (ascii "b") []]] ++ oneFolder) := by
    decide +kernel
  exact ⟨_, _, hrun, dirTree_oneFolder, injOn_of_list (by decide +kernel), by decide +kernel,
    by decide +kernel⟩

end Small

end Bpy.TreeMove
