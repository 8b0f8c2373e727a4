import Bpy.LinkedFolders
import Bpy.ObjectGraph
import Bpy.PathElements

/-!
# Trees of stored directories

A directory that `WriteDir` wrote is a `Folder`: its entries are sorted and fit into
their encodings. Stored directories are linked folders, where an entry refers to a
directory by its hash tree, and `Walk` looks a path up in them.
-/
namespace Bpy.DirTrees
open ByteWords InteractionPrograms ContentStore HashTreeWriter HashTreeStreams
open Directories FileTrees PathElements LinkedFolders ObjectGraph Method
open List

section Order

theorem less_eq_false_iff {a b : DirEnt} : less b a = false ↔
    (a.isDir = true ∧ b.isDir = false) ∨ (a.isDir = b.isDir ∧ a.entName ≤ b.entName) := by
  rw [← List.not_lt]
  cases ha : a.isDir <;> cases hb : b.isDir <;> simp [less, ha, hb]

/-- The order of the entries of a directory. -/
abbrev Before (a b : DirEnt) : Prop := less b a = false

instance : Std.Total Before where
  total a b := by
    simp only [Before, less_eq_false_iff]
    cases a.isDir <;> cases b.isDir <;> simp [List.le_total]

instance : IsTrans DirEnt Before where
  trans a b c hab hbc := by
    simp only [Before, less_eq_false_iff] at hab hbc ⊢
    rcases hab with ⟨ha, hb⟩ | ⟨hab, hle⟩
    · rcases hbc with ⟨hb', -⟩ | ⟨hbc, -⟩
      · simp [hb] at hb'
      · exact Or.inl ⟨ha, by rw [← hbc, hb]⟩
    · rcases hbc with ⟨hb, hc⟩ | ⟨hbc, hle'⟩
      · exact Or.inl ⟨by rw [hab, hb], hc⟩
      · exact Or.inr ⟨hab.trans hbc, List.le_trans hle hle'⟩

theorem pairwise_sortEnts (ents : List DirEnt) : (sortEnts ents).Pairwise Before :=
  pairwise_insertionSort Before ents

theorem sortEnts_eq {ents : List DirEnt} (h : ents.Pairwise Before) : sortEnts ents = ents :=
  h.insertionSort_eq

end Order

section Folders

/-- The entry for `.` of the directory with the tree `t`. -/
def rootEnt (mode : UInt32) (t : HTree) : DirEnt := { dotEnt mode with htree := t }

theorem or_modeDir (mode : UInt32) : (mode ||| modeDir) &&& modeDir = modeDir := by
  apply UInt32.eq_of_toBitVec_eq
  simp only [UInt32.toBitVec_and, UInt32.toBitVec_or]
  ext i
  simp only [BitVec.getElem_and, BitVec.getElem_or]
  cases mode.toBitVec[i] <;> simp

theorem isDir_rootEnt (mode : UInt32) (t : HTree) : (rootEnt mode t).isDir = true := by
  simp only [rootEnt, dotEnt, DirEnt.isDir, or_modeDir]
  decide

theorem dotEnt_entMode (mode : UInt32) (t : HTree) : dotEnt (rootEnt mode t).entMode = dotEnt mode := by
  simp [rootEnt, dotEnt, UInt32.or_assoc]

structure Folder (stored : Hash → Bytes → Prop) (t : HTree) (mode : UInt32) (ents : List DirEnt) :
    Prop where
  tree : Tree stored t (encodeEnts (dotEnt mode :: ents))
  encodable : ∀ e ∈ ents, e.Encodable
  sorted : ents.Pairwise Before

variable {stored stored' : Hash → Bytes → Prop} {t t' : HTree} {mode mode' : UInt32}
  {ents ents' : List DirEnt}

theorem Folder.all_encodable (hf : Folder stored t mode ents) : ∀ e ∈ dotEnt mode :: ents, e.Encodable := by
  intro e he
  rcases mem_cons.mp he with rfl | he
  · exact dotEnt_encodable mode
  · exact hf.encodable e he

theorem Folder.mono (hf : Folder stored t mode ents) (hst : ∀ h c, stored h c → stored' h c) :
    Folder stored' t mode ents := ⟨hf.tree.mono hst, hf.encodable, hf.sorted⟩

theorem Folder.unique (hfun : Functional stored) (hf : Folder stored t mode ents) (hf' : Folder stored t' mode' ents')
    (ht : t.data = t'.data) : t = t' ∧ dotEnt mode = dotEnt mode' ∧ ents = ents' := by
  obtain ⟨htt, henc⟩ := tree_unique hfun hf.tree hf'.tree ht
  have hdec := decodeEnts_encodeEnts hf.all_encodable _ (Nat.lt_succ_of_le (length_le_encodeEnts _))
  have hdec' := decodeEnts_encodeEnts hf'.all_encodable _ (Nat.lt_succ_of_le (length_le_encodeEnts _))
  rw [henc, hdec'] at hdec
  simp only [Except.ok.injEq, List.cons.injEq] at hdec
  exact ⟨htt, hdec.1.symm, hdec.2.symm⟩

variable {e : DirEnt} {name : Bytes} {hfun : Functional stored}

theorem findEnt_cons_of_ne (hne : e.entName ≠ name) : findEnt (e :: ents) name = findEnt ents name := by
  simp [findEnt, hne]

theorem findEnt_cons_self (h : e.entName = name) : findEnt (e :: ents) name = some e := by
  simp [findEnt, h]

theorem mem_of_findEnt (h : findEnt ents name = some e) : e ∈ ents ∧ e.entName = name :=
  ⟨List.mem_of_find?_eq_some h, by simpa using List.find?_some h⟩

theorem findEnt_setTree (t : HTree) (h : findEnt ents name = some e) :
    findEnt (setTree name t ents) name = some { e with htree := t } := by
  induction ents with
  | nil => simp [findEnt] at h
  | cons a ents ih =>
    rw [setTree]
    split
    · rename_i ha
      rw [findEnt_cons_self ha, Option.some.injEq] at h
      subst h
      exact findEnt_cons_self ha
    · rename_i ha
      rw [findEnt_cons_of_ne ha] at h ⊢
      exact ih h

theorem findEnt_setTree_of_ne {m : Bytes} (t : HTree) (hm : m ≠ name) :
    findEnt (setTree name t ents) m = findEnt ents m := by
  induction ents with
  | nil => rfl
  | cons a ents ih =>
    rw [setTree]
    split
    · rename_i ha
      rw [findEnt_cons_of_ne, findEnt_cons_of_ne]
      · exact fun h => hm (h.symm.trans ha)
      · exact fun h => hm (h.symm.trans ha)
    · by_cases ham : a.entName = m
      · rw [findEnt_cons_self ham, findEnt_cons_self ham]
      · rw [findEnt_cons_of_ne ham, findEnt_cons_of_ne ham, ih]

/-- What is in a directory, besides the entry for `.`, and the mode of that entry. -/
structure Listing where
  mode : UInt32
  ents : List DirEnt

/-- Stored directories. -/
def links (hfun : Functional stored) : Links Bytes DirEnt HTree Listing where
  folder e := if e.isDir then some e.htree else none
  link e t := { e with htree := t }
  find d := findEnt d.ents
  relink d name t := { d with ents := setTree name t d.ents }
  contents u d := d.mode ||| modeDir = d.mode ∧ ∃ t, t.data = u.data ∧ Folder stored t d.mode d.ents
  folder_link e r r' hf := by
    split at hf
    · rename_i hdir
      exact if_pos hdir
    · simp at hf
  find_relink _ _ t _ h := findEnt_setTree t h
  find_relink_of_ne _ _ t _ h := findEnt_setTree_of_ne t h
  unique u d d' hd hd' := by
    obtain ⟨hm, t, ht, hf⟩ := hd
    obtain ⟨hm', t', ht', hf'⟩ := hd'
    obtain ⟨-, hmode, hents⟩ := hf.unique hfun hf' (ht.trans ht'.symm)
    rcases d with ⟨mode, ents⟩
    rcases d' with ⟨mode', ents'⟩
    simp only [dotEnt, DirEnt.mk.injEq, true_and, and_true] at hmode
    simp only [hm, hm'] at hmode
    exact congrArg₂ Listing.mk hmode hents

theorem Folder.listing (hf : Folder stored t mode ents) (hfun : Functional stored) {u : HTree}
    (ht : t.data = u.data) : (links hfun).contents u ⟨mode ||| modeDir, ents⟩ := by
  refine ⟨by simp [UInt32.or_assoc], t, ht, ?_, hf.encodable, hf.sorted⟩
  have hdot : dotEnt (mode ||| modeDir) = dotEnt mode := dotEnt_entMode mode t
  rw [hdot]
  exact hf.tree

theorem links_extends (hfun : Functional stored) (hfun' : Functional stored')
    (hst : ∀ h c, stored h c → stored' h c) : (links hfun).Extends (links hfun') where
  folder := rfl
  link := rfl
  find := rfl
  relink := rfl
  contents := by
    rintro u d ⟨hm, t, ht, hf⟩
    exact ⟨hm, t, ht, hf.mono hst⟩

theorem folder_eq_some (he : e.isDir = true) :
    (links hfun).folder e = some e.htree := if_pos he

theorem isDir_of_folder {r : HTree}
    (he : (links hfun).folder e = some r) : e.isDir = true ∧ r = e.htree := by
  simp only [links] at he
  split at he
  · rename_i hdir
    exact ⟨hdir, (Option.some.inj he).symm⟩
  · simp at he

end Folders

section Walk

variable {ω : Type} {sha256 : Bytes → Hash} {s : List Bytes} (room : ℕ → ℕ)

theorem readDir_folder {t : HTree} {mode : UInt32} {ents : List DirEnt} (w : ω)
    (hinj : Set.InjOn sha256 {c | c ∈ s}) (hf : Folder (Stored sha256 s) t mode ents) :
    exec (memStore sha256) (readDir room t.data) w s = (.ok (rootEnt mode t :: ents), w, s) := by
  obtain ⟨rdr, hread, hheight⟩ := readTree_spec room w (serves_self hinj) hf.tree
  have hdec := decodeEnts_encodeEnts hf.all_encodable _ (Nat.lt_succ_of_le (length_le_encodeEnts _))
  rw [readDir, exec_bind_ok _ hread]
  simp [exec_bind, hdec, hheight, rootEnt]

/-- What `Walk` returns. -/
def walkResult : Except (Failure Bytes DirEnt) DirEnt → Except GoError DirEnt
  | .ok e => .ok e
  | .error (.missing name) => .error (.format "no such directory: %s" name)
  | .error (.notFolder e) => .error (.format "not a directory: %s" e.entName)

theorem exec_walkElems_step (w : ω) (hinj : Set.InjOn sha256 {c | c ∈ s}) {result : DirEnt} {t : HTree} {mode : UInt32}
    {ents : List DirEnt} {n : Bytes} (ns : List Bytes) (hf : Folder (Stored sha256 s) t mode ents) (hn : Proper n) :
    exec (memStore sha256) (walkElems room result t.data (n :: ns)) w s =
      match findEnt ents n with
      | none => (.error (.format "no such directory: %s" n), w, s)
      | some e =>
        if ns = [] then (.ok e, w, s)
        else if e.isDir then exec (memStore sha256) (walkElems room result e.htree.data ns) w s
        else (.error (.format "not a directory: %s" e.entName), w, s) := by
  have hfind : findEnt (rootEnt mode t :: ents) n = findEnt ents n := findEnt_cons_of_ne hn.ne_dot.symm
  rw [walkElems, exec_bind_ok _ (readDir_folder room w hinj hf), if_neg hn.ne_nil, hfind]
  cases findEnt ents n with
  | none => rfl
  | some e =>
    dsimp only
    split
    · rfl
    · split
      · rfl
      · rfl

variable {x : Except (Failure Bytes DirEnt) DirEnt}

theorem exec_walkElems (w : ω) (hinj : Set.InjOn sha256 {c | c ∈ s}) (result : DirEnt) {e : DirEnt} {n : Bytes}
    {ns : List Bytes} (hdir : e.isDir = true)
    (hns : ∀ m ∈ n :: ns, Proper m) (hx : (links (functional_stored hinj)).Resolves e (n :: ns) x) :
    exec (memStore sha256) (walkElems room result e.htree.data (n :: ns)) w s = (walkResult x, w, s) := by
  induction ns generalizing n e with
  | nil =>
    cases hx with
    | notFolder hf => simp [links, hdir] at hf
    | missing hf hd hm =>
      obtain ⟨-, rfl⟩ := isDir_of_folder hf
      obtain ⟨-, t, ht, hfold⟩ := hd
      rw [← ht, exec_walkElems_step room w hinj [] hfold (hns n mem_cons_self)]
      simp only [links] at hm
      rw [hm]
      rfl
    | step hf hd hm h =>
      obtain ⟨-, rfl⟩ := isDir_of_folder hf
      obtain ⟨-, t, ht, hfold⟩ := hd
      cases h
      rw [← ht, exec_walkElems_step room w hinj [] hfold (hns n mem_cons_self)]
      simp only [links] at hm
      rw [hm]
      rfl
  | cons m ms ih =>
    cases hx with
    | notFolder hf => simp [links, hdir] at hf
    | missing hf hd hm =>
      obtain ⟨-, rfl⟩ := isDir_of_folder hf
      obtain ⟨-, t, ht, hfold⟩ := hd
      rw [← ht, exec_walkElems_step room w hinj _ hfold (hns n mem_cons_self)]
      simp only [links] at hm
      rw [hm]
      rfl
    | @step _ a _ _ _ _ _ hf hd hm h =>
      obtain ⟨-, rfl⟩ := isDir_of_folder hf
      obtain ⟨-, t, ht, hfold⟩ := hd
      rw [← ht, exec_walkElems_step room w hinj _ hfold (hns n mem_cons_self)]
      simp only [links] at hm
      rw [hm]
      cases ha : a.isDir with
      | true =>
        have hrest := ih ha (fun k hk => hns k (mem_cons_of_mem n hk)) h
        simpa [ha] using hrest
      | false =>
        cases h with
        | notFolder _ => simp [ha, walkResult]
        | missing hf' _ _ => simp [links, ha] at hf'
        | step hf' _ _ _ => simp [links, ha] at hf'

theorem exec_walk (w : ω) (hinj : Set.InjOn sha256 {c | c ∈ s}) {t : HTree} {mode : UInt32} {ents : List DirEnt}
    {p : Bytes} (hf : Folder (Stored sha256 s) t mode ents)
    (hx : (links (functional_stored hinj)).Resolves (rootEnt mode t) (elems p) x) :
    exec (memStore sha256) (walk room t.data p) w s = (walkResult x, w, s) := by
  have hread := readDir_folder room w hinj hf
  have hpath : trimLast (splitPath (clean (rooted p))) = [] :: elems p := by
    rw [clean_rooted, trimLast_splitPath (proper_elems p)]
  have hdot : findEnt (rootEnt mode t :: ents) (ascii ".") = some (rootEnt mode t) := by
    simp [findEnt, rootEnt, dotEnt]
  rw [walk, exec_bind_ok _ hread]
  simp only [hpath]
  rw [walkElems, exec_bind_ok _ hread, if_pos rfl, hdot]
  cases hp : elems p with
  | nil =>
    rw [hp] at hx
    cases hx
    rfl
  | cons n ns =>
    rw [hp] at hx
    have hproper := proper_elems p
    rw [hp] at hproper
    have hrest := exec_walkElems room w hinj (rootEnt mode t) (isDir_rootEnt mode t) hproper hx
    simpa [isDir_rootEnt] using hrest

end Walk

section Trees

variable {stored stored' : Hash → Bytes → Prop} {Q Q' : List DirEnt → Prop}

/-- A directory whose entries satisfy `Q`, as do those of all directories below it. -/
inductive DirTree (stored : Hash → Bytes → Prop) (Q : List DirEnt → Prop) : Hash → Prop
  | intro {t : HTree} {mode : UInt32} {ents : List DirEnt} (hf : Folder stored t mode ents) (hQ : Q ents)
      (hsub : ∀ e ∈ ents, e.isDir = true → DirTree stored Q e.htree.data) : DirTree stored Q t.data

/-- The names in a directory can be told apart, and can be the names of files and folders. -/
structure Named (ents : List DirEnt) : Prop where
  proper : ∀ e ∈ ents, Proper e.entName
  distinct : (ents.map DirEnt.entName).Nodup

theorem DirTree.mono {h : Hash} (hst : ∀ h c, stored h c → stored' h c) (hQ : ∀ ents, Q ents → Q' ents)
    (hd : DirTree stored Q h) : DirTree stored' Q' h := by
  induction hd with
  | intro hf hq _ ih => exact .intro (hf.mono hst) (hQ _ hq) ih

theorem DirTree.tree (hfun : Functional stored) {u : HTree} (hd : DirTree stored Q u.data) :
    (links hfun).Tree (fun d => Q d.ents) u := by
  generalize hu : u.data = h at hd
  induction hd generalizing u with
  | @intro t mode ents hf hQ _ ih =>
    refine .intro (hf.listing hfun hu.symm) hQ (fun n e s hn he => ?_)
    obtain ⟨hdir, rfl⟩ := isDir_of_folder he
    exact ih e (mem_of_findEnt hn).1 hdir rfl

theorem findEnt_of_mem {ents : List DirEnt} {e : DirEnt} (hnames : (ents.map DirEnt.entName).Nodup)
    (he : e ∈ ents) : findEnt ents e.entName = some e := by
  induction ents with
  | nil => simp at he
  | cons a ents ih =>
    rw [map_cons, nodup_cons] at hnames
    rcases mem_cons.mp he with rfl | he
    · exact findEnt_cons_self rfl
    · rw [findEnt_cons_of_ne]
      · exact ih hnames.2 he
      · intro ha
        exact hnames.1 (ha ▸ mem_map_of_mem he)

theorem dirTree_of_tree {hfun : Functional stored} {u : HTree} (ht : (links hfun).Tree (fun d => Named d.ents) u) :
    DirTree stored Named u.data := by
  induction ht with
  | intro hd hQ _ ih =>
    obtain ⟨-, t, hu, hf⟩ := hd
    rw [← hu]
    refine .intro hf hQ (fun e he hdir => ?_)
    exact ih e.entName e e.htree (findEnt_of_mem hQ.distinct he) (folder_eq_some hdir)

end Trees

end Bpy.DirTrees
