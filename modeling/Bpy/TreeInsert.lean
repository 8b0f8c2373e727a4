import Bpy.TreeEdits

/-!
# `fs.Insert` is a local update

What an entry that is added to a directory does to the names in it. A folder that is added
hides a file of the same name, a file does not hide a folder, and two entries of the same
kind are refused. In a tree whose names are distinct, the new entry is found at its path,
the folders above it change their hash trees only, and other paths lead where they did.
-/
namespace Bpy.TreeInsert
open ByteWords InteractionPrograms ContentStore HashTreeWriter HashTreeStreams Directories Method
open FileTrees PathElements LinkedFolders ObjectGraph DirTrees TreeEdits
open List

section Names

variable {ent : DirEnt} {ents : List DirEnt}

theorem sortEnts_cons (hs : ents.Pairwise Before) : sortEnts (ent :: ents) = ents.orderedInsert Before ent := by
  have hsort := sortEnts_eq hs
  rw [sortEnts] at hsort
  rw [sortEnts, insertionSort_cons, hsort]

theorem findEnt_insert_of_ne {name : Bytes} (hne : name ≠ ent.entName) :
    findEnt (ents.orderedInsert Before ent) name = findEnt ents name := by
  induction ents with
  | nil => exact findEnt_cons_of_ne hne.symm
  | cons a ents ih =>
    rw [orderedInsert_cons]
    split
    · exact findEnt_cons_of_ne hne.symm
    · by_cases ha : a.entName = name
      · rw [findEnt_cons_self ha, findEnt_cons_self ha]
      · rw [findEnt_cons_of_ne ha, findEnt_cons_of_ne ha, ih]

theorem findEnt_insert_self (hs : ents.Pairwise Before)
    (hfirst : ∀ f, findEnt ents ent.entName = some f → Before ent f) :
    findEnt (ents.orderedInsert Before ent) ent.entName = some ent := by
  induction ents with
  | nil => exact findEnt_cons_self rfl
  | cons a ents ih =>
    rw [orderedInsert_cons]
    split
    · exact findEnt_cons_self rfl
    · rename_i hafter
      have ha : a.entName ≠ ent.entName := fun ha => hafter (hfirst a (findEnt_cons_self ha))
      rw [findEnt_cons_of_ne ha]
      apply ih hs.of_cons
      intro f hf
      exact hfirst f ((findEnt_cons_of_ne ha).trans hf)

theorem findEnt_insert_hidden {f : DirEnt} (hs : ents.Pairwise Before) (hf : findEnt ents ent.entName = some f)
    (hafter : ¬ Before ent f) : findEnt (ents.orderedInsert Before ent) ent.entName = some f := by
  induction ents with
  | nil => simp [findEnt] at hf
  | cons a ents ih =>
    rw [orderedInsert_cons]
    have ha : ¬ Before ent a := by
      intro h
      apply hafter
      rcases mem_cons.mp (mem_of_findEnt hf).1 with rfl | hmem
      · exact h
      · exact trans_of Before h (rel_of_pairwise_cons hs hmem)
    rw [if_neg ha]
    by_cases hname : a.entName = ent.entName
    · rw [findEnt_cons_self hname] at hf ⊢
      exact hf
    · rw [findEnt_cons_of_ne hname] at hf ⊢
      exact ih hs.of_cons hf

/-- Two entries that a directory can have besides each other. -/
def Apart (a b : DirEnt) : Prop := a.isDir = b.isDir → a.entName ≠ b.entName

theorem pairwise_apart {ents : List DirEnt} (hs : ents.Pairwise Before) (h : checkNames ents = .ok ()) :
    ents.Pairwise Apart := by
  induction ents with
  | nil => exact List.Pairwise.nil
  | cons a ents ih =>
    cases ents with
    | nil => exact pairwise_singleton _ a
    | cons b ents =>
      rw [checkNames] at h
      split at h
      · simp at h
      · split at h
        · simp at h
        · rename_i hab
          apply List.Pairwise.cons _ (ih hs.of_cons h)
          intro c hc hkind hname
          rcases mem_cons.mp hc with rfl | hc
          · exact hab hname
          · -- the entry between two of the same kind and name is of this kind and name too
            have hab' := less_eq_false_iff.mp (rel_of_pairwise_cons hs mem_cons_self)
            have hbc' := less_eq_false_iff.mp (rel_of_pairwise_cons hs.of_cons hc)
            rcases hab' with ⟨ha, hb⟩ | ⟨hab', hle⟩
            · rcases hbc' with ⟨hb', -⟩ | ⟨hbc', -⟩
              · simp [hb] at hb'
              · rw [hkind, ← hbc', hb] at ha
                simp at ha
            · rcases hbc' with ⟨hb, hc'⟩ | ⟨-, hle'⟩
              · rw [hkind, hc', hb] at hab'
                simp at hab'
              · rw [← hname] at hle'
                exact hab (List.le_antisymm hle hle')

end Names

section Rebound

variable {stored : Hash → Bytes → Prop} {ent f : DirEnt} {u u' : HTree} {d : Listing}
  (hfun : Functional stored) (h : Inserted ent stored u u')
include hfun h

theorem listing_of_inserted : ∃ d, (links hfun).contents u d := by
  obtain ⟨t, mode, ents, ht, hf, -⟩ := h
  exact ⟨_, hf.listing hfun ht⟩

section

variable (hd : (links hfun).contents u d)
include hd

theorem newListing_of_inserted :
    d.ents.Pairwise Before ∧ checkNames (sortEnts (ent :: d.ents)) = .ok () ∧
      (links hfun).contents u' ⟨d.mode, d.ents.orderedInsert Before ent⟩ := by
  obtain ⟨t, mode, ents, ht, hf, hf', hnames⟩ := h
  rw [(links hfun).unique _ _ _ hd (hf.listing hfun ht)]
  refine ⟨hf.sorted, hnames, ?_⟩
  rw [← sortEnts_cons hf.sorted]
  exact hf'.listing hfun rfl

theorem apart_of_inserted (hf : f ∈ d.ents) : Apart ent f := by
  obtain ⟨-, hnames, -⟩ := newListing_of_inserted hfun h hd
  have hpair := pairwise_apart (pairwise_sortEnts _) hnames
  have hsymm : ∀ {a b : DirEnt}, Apart a b → Apart b a := fun hab hkind hname => hab hkind.symm hname.symm
  have hperm : (sortEnts (ent :: d.ents)).Perm (ent :: d.ents) := perm_insertionSort _ _
  exact rel_of_pairwise_cons ((hperm.pairwise_iff hsymm).mp hpair) hf

theorem rebound_of_inserted (hfirst : ∀ f, findEnt d.ents ent.entName = some f → Before ent f) :
    (links hfun).Rebound ent.entName (some ent) u u' := by
  obtain ⟨hsorted, -, hd'⟩ := newListing_of_inserted hfun h hd
  exact ⟨d, _, hd, hd', findEnt_insert_self hsorted hfirst, fun m hm => findEnt_insert_of_ne hm⟩

theorem rebound_of_hidden (hf : findEnt d.ents ent.entName = some f)
    (hafter : ¬ Before ent f) : (links hfun).Rebound ent.entName (some f) u u' := by
  obtain ⟨hsorted, -, hd'⟩ := newListing_of_inserted hfun h hd
  exact ⟨d, _, hd, hd', findEnt_insert_hidden hsorted hf hafter, fun m hm => findEnt_insert_of_ne hm⟩

end

theorem tree_of_inserted {Q : Listing → Prop}
    (hQ : ∀ d, (links hfun).contents u d → Q d → Q ⟨d.mode, d.ents.orderedInsert Before ent⟩)
    (hent : ent.isDir = true → (links hfun).Tree Q ent.htree) (hu : (links hfun).Tree Q u) :
    (links hfun).Tree Q u' := by
  cases hu with
  | @intro _ d hd hq hsub =>
    obtain ⟨hsorted, -, hd'⟩ := newListing_of_inserted hfun h hd
    refine .intro hd' (hQ d hd hq) (fun n a s hn ha => ?_)
    obtain ⟨hdir, rfl⟩ := isDir_of_folder ha
    by_cases hname : n = ent.entName
    · subst hname
      by_cases hfirst : ∀ f, findEnt d.ents ent.entName = some f → Before ent f
      · have hself := findEnt_insert_self hsorted hfirst
        simp only [links] at hn
        rw [hself, Option.some.injEq] at hn
        subst hn
        exact hent hdir
      · simp only [not_forall] at hfirst
        obtain ⟨f, hf, hafter⟩ := hfirst
        have hhidden := findEnt_insert_hidden hsorted hf hafter
        simp only [links] at hn
        rw [hhidden, Option.some.injEq] at hn
        subst hn
        exact hsub _ _ _ hf ha
    · refine hsub n a _ ?_ ha
      simp only [links] at hn ⊢
      rwa [findEnt_insert_of_ne hname] at hn

end Rebound

section Insert

variable {ω : Type} (room : ℕ → ℕ) {sha256 : Bytes → Hash} {s s' : List Bytes} {w w' : ω}

/-- `Insert` of an entry where there is none: `Walk` finds it under its new name, a path
that is neither there nor below nor above leads to the same result as before, and an
entry above changes its hash tree only. -/
theorem insert_local {root : Hash} {p : Bytes} {e r : DirEnt} (hinj : Set.InjOn sha256 {c | c ∈ s'})
    (htree : DirTree (Stored sha256 s) Named root) (habs : p.head? = some slash) (hclean : clean p = p)
    (hroot : p ≠ [slash]) (hdepth : e.htree.depth < 256)
    (habsent : ∀ a, (exec (memStore sha256) (walk room root p) w s).1 ≠ .ok a)
    (hinsert : exec (memStore sha256) (FileTrees.insert room root p e) w s = (.ok r, w', s')) :
    (exec (memStore sha256) (walk room r.htree.data p) w' s').1 =
      .ok { e with entName := base p } ∧
    (∀ q, ¬ elems p <+: elems q → ¬ elems q <+: elems p →
      (exec (memStore sha256) (walk room r.htree.data q) w' s').1 =
        (exec (memStore sha256) (walk room root q) w s).1) ∧
    (∀ q, elems q <+: elems p → elems q ≠ elems p → ∃ a t,
      (exec (memStore sha256) (walk room root q) w s).1 = .ok a ∧
      (exec (memStore sha256) (walk room r.htree.data q) w' s').1 =
        .ok { a with htree := t }) := by
  have hinj₀ := injOn_of_exec hinsert hinj
  have hbase := proper_base_of_clean habs hclean hroot
  have helems := elems_eq_append hbase
  have hrooted : rooted p = p := if_pos habs
  have hthere := htree
  cases hthere with
  | @intro t mode ents hf _ _ =>
    have hread : (links (functional_stored hinj₀)).Tree (fun _ => True) t :=
      (htree.tree _).mono (.refl _) (fun _ _ => trivial)
    have hwritten := insert_edits room p hdepth t w w' s s' r hinj₀ hinj hread hinsert
    have hfolder : (links (functional_stored hinj)).folder (rootEnt mode t) = some t :=
      folder_eq_some (isDir_rootEnt mode t)
    have hbefore := fun {q x} => exec_walk_before room (q := q) (x := x) w hinj hwritten.grows hf htree
    obtain ⟨-, ents', hf'⟩ := hwritten.newRoot hinj₀ hf rfl
    have hafter := fun {q x} => exec_walk room w' hinj (p := q) (x := x) hf'
    have hname : renamed p e = { e with entName := base (rooted p) } := if_neg hbase.ne_nil
    rw [hname] at hwritten
    -- an entry with the name would have been found by `Walk`
    obtain ⟨a, u, u', ha, hu, hins, -⟩ := hwritten.edited.target hfolder
    obtain ⟨d, hd⟩ := listing_of_inserted (functional_stored hinj) hins
    have hfirst : ∀ b, findEnt d.ents (base (rooted p)) = some b →
        Before { e with entName := base (rooted p) } b := by
      intro b hb
      have hfound := ha.append (.step hu hd hb (.here b))
      rw [← helems] at hfound
      exact absurd (congrArg Prod.fst (hbefore hfound)) (habsent b)
    have hedit := hwritten.edited.imp hfolder ha hu
      (fun _ hins => rebound_of_inserted (functional_stored hinj) hins hd hfirst)
    refine ⟨?_, ?_, ?_⟩
    · have hfound := hedit.at_bound hfolder (.here _)
      rw [← helems, hrooted] at hfound
      exact congrArg Prod.fst (hafter hfound)
    · intro q hbelow habove
      rw [helems] at hbelow habove
      obtain ⟨x, hx⟩ := (htree.tree (functional_stored hinj₀)).resolves
        (folder_eq_some (isDir_rootEnt mode t)) (elems q)
      have hx' := hx.mono (links_extends _ (functional_stored hinj) (stored_grows sha256 hwritten.grows))
      have hsame := hedit.aside hfolder hbelow habove hx'
      rw [hbefore hx', hafter hsame]
    · intro q habove hne
      rw [helems] at habove hne
      have hpre : elems q <+: dirElems p := by
        rcases List.prefix_concat_iff.mp habove with heq | hpre
        · exact absurd heq hne
        · exact hpre
      obtain ⟨rest, hrest⟩ := hpre
      rw [← hrest] at hedit
      obtain ⟨a, u, u', ha, -, -, ha'⟩ := hedit.above hfolder
      exact ⟨a, u', congrArg Prod.fst (hbefore ha), congrArg Prod.fst (hafter ha')⟩

/-- A hash that tells a few small directories apart. -/
def sumHash (c : Bytes) : Hash := Hash.copy (leBytes 8 (c.foldl (fun n b => 257 * n + b.toNat) 1))

/-- The chunk of a small directory. -/
def dirChunk (mode : UInt32) (ents : List DirEnt) : Bytes := 0 :: encodeEnts (dotEnt mode :: ents)

/-- The directory fits one chunk. -/
abbrev Small (mode : UInt32) (ents : List DirEnt) : Prop :=
  (encodeEnts (dotEnt mode :: ents)).length < maxlen ∧
    (∀ e ∈ ents, e.entName.length ≤ 65535 ∧ e.htree.depth < 256) ∧ ents.Pairwise Before

theorem folder_dirChunk {sha256 : Bytes → Hash} {s : List Bytes} {mode : UInt32} {ents : List DirEnt}
    (hmem : dirChunk mode ents ∈ s) (hsmall : Small mode ents) :
    Folder (Stored sha256 s) ⟨0, sha256 (dirChunk mode ents)⟩ mode ents := by
  obtain ⟨hlen, henc, hsort⟩ := hsmall
  refine ⟨⟨⟨⟨hmem, rfl⟩, hlen⟩, show 0 + 1 < nlevels by decide, ?_⟩, fun e he => ⟨(henc e he).1, (henc e he).2⟩, hsort⟩
  rw [maxlen] at hlen
  omega

/-- A small file. -/
def file (name : Bytes) : DirEnt := ⟨name, 3, 0, 420, ⟨0, Hash.zero⟩⟩

def folderEnt (name : Bytes) (ents : List DirEnt) : DirEnt :=
  ⟨name, 0, 0, modeDir, ⟨0, sumHash (dirChunk 0 ents)⟩⟩

/-- A folder with one file, and a file beside it. -/
def nestedEnts : List DirEnt := [folderEnt (ascii "d") [file (ascii "f")], file (ascii "x")]

def nestedRoot : Hash := sumHash (dirChunk 0 nestedEnts)

def nestedStore : List Bytes := [dirChunk 0 nestedEnts, dirChunk 0 [file (ascii "f")]]

theorem folder_nested : Folder (Stored sumHash nestedStore) ⟨0, nestedRoot⟩ 0 nestedEnts :=
  folder_dirChunk mem_cons_self (by decide +kernel)

theorem folder_nested_sub :
    Folder (Stored sumHash nestedStore) ⟨0, sumHash (dirChunk 0 [file (ascii "f")])⟩ 0 [file (ascii "f")] :=
  folder_dirChunk (mem_cons_of_mem _ mem_cons_self) (by decide +kernel)

theorem dirTree_nested {Q : List DirEnt → Prop} (hQ : Q nestedEnts) (hQ' : Q [file (ascii "f")]) :
    DirTree (Stored sumHash nestedStore) Q nestedRoot := by
  refine .intro folder_nested hQ ?_
  intro e he hdir
  rcases mem_pair.mp he with rfl | rfl
  · refine .intro folder_nested_sub hQ' fun e he hdir => ?_
    rw [mem_singleton.mp he] at hdir
    cases hdir
  · cases hdir

/-- A file that is put into the folder, with another one there and one beside the folder. -/
theorem insert_local_nested : ∃ r s',
    exec (memStore sumHash) (FileTrees.insert id nestedRoot (ascii "/d/a") (file (ascii "y"))) ()
      nestedStore = (.ok r, (), s') ∧
    (exec (memStore sumHash) (walk id r.htree.data (ascii "/d/a")) () s').1 = .ok (file (ascii "a")) ∧
    (exec (memStore sumHash) (walk id r.htree.data (ascii "/d/f")) () s').1 = .ok (file (ascii "f")) ∧
    (exec (memStore sumHash) (walk id r.htree.data (ascii "/x")) () s').1 = .ok (file (ascii "x")) := by
  have hrun : exec (memStore sumHash) (FileTrees.insert id nestedRoot (ascii "/d/a") (file (ascii "y"))) ()
      nestedStore =
      (.ok (rootEnt 0 ⟨0, sumHash (dirChunk 0
          [folderEnt (ascii "d") [file (ascii "a"), file (ascii "f")], file (ascii "x")])⟩), (),
        [dirChunk 0 [folderEnt (ascii "d") [file (ascii "a"), file (ascii "f")], file (ascii "x")],
          dirChunk 0 [file (ascii "a"), file (ascii "f")]] ++ nestedStore) := by
    decide +kernel
  have habsent : (exec (memStore sumHash) (walk id nestedRoot (ascii "/d/a")) () nestedStore).1 =
      .error (.format "no such directory: %s" (ascii "a")) := by
    decide +kernel
  obtain ⟨hthere, hother, -⟩ := insert_local id (injOn_of_list (by decide +kernel))
    (dirTree_nested ⟨by decide, by decide⟩ ⟨by decide, by decide⟩) (by decide) (by decide) (by decide) (by decide)
    (by simp [habsent]) hrun
  refine ⟨_, _, hrun, hthere, ?_, ?_⟩
  · rw [hother (ascii "/d/f") (by decide) (by decide)]
    decide +kernel
  · rw [hother (ascii "/x") (by decide) (by decide)]
    decide +kernel

end Insert

end Bpy.TreeInsert
