import Bpy.TreeMove
import Bpy.HostBackup

/-!
# The names in a drive

A drive is changed by `Insert`, `Copy`, `Move` and `Remove`, with entries from `EmptyDir`,
`Walk` and `CpHostToFs`. `WriteDir` refuses some names only, so a new entry can get a name
that `Walk` does not look up, or the name of an entry of the other kind. In a run where no
call does this, `Walk` finds every entry of every tree.
-/
namespace Bpy.DriveNames
open ByteWords InteractionPrograms ContentStore HashTreeWriter HashTreeStreams Directories
open FileTrees PathElements LinkedFolders ObjectGraph DirTrees TreeEdits TreeInsert TreeMove HostBackup Method
open List hiding insert

section Model

/-- A store, the roots of the trees that were made in it, and the entries that can be
inserted. -/
structure Drive where
  store : List Bytes
  roots : List Hash
  ents : List DirEnt
  deriving DecidableEq

inductive Act where
  | emptyDir (mode : UInt32)
  | cpHostToFs (src : HostNode)
  | walk (root : Hash) (fpath : Bytes)
  | insert (root : Hash) (destPath : Bytes) (ent : DirEnt)
  | copy (root : Hash) (destPath srcPath : Bytes)
  | move (root : Hash) (destPath srcPath : Bytes)
  | remove (root : Hash) (filePath : Bytes)

variable (sha256 : Bytes → Hash) (room : ℕ → ℕ)

def Act.call : Act → StoreM Unit DirEnt
  | .emptyDir mode => FileTrees.emptyDir mode
  | .cpHostToFs src => FileTrees.cpHostToFs src
  | .walk root fpath => FileTrees.walk room root fpath
  | .insert root destPath ent => FileTrees.insert room root destPath ent
  | .copy root destPath srcPath => FileTrees.copy room root destPath srcPath
  | .move root destPath srcPath => FileTrees.move room root destPath srcPath
  | .remove root filePath => FileTrees.remove room root filePath

/-- What was returned is a new tree, or an entry that can be inserted. -/
def Act.record (d : Drive) (e : DirEnt) : Act → Drive
  | .emptyDir _ => { d with roots := e.htree.data :: d.roots, ents := e :: d.ents }
  | .cpHostToFs _ | .walk _ _ => { d with ents := e :: d.ents }
  | .insert _ _ _ | .copy _ _ _ | .move _ _ _ | .remove _ _ => { d with roots := e.htree.data :: d.roots }

/-- A call that fails may have stored chunks. -/
def Drive.after (d : Drive) (act : Act) : Drive :=
  match exec (memStore sha256) (act.call room) () d.store with
  | (.ok e, _, s) => act.record { d with store := s } e
  | (.error _, _, s) => { d with store := s }

def Drive.run : Drive → List Act → Drive
  | d, [] => d
  | d, act :: acts => Drive.run (d.after sha256 room act) acts

/-- The trees and entries of a call were made before. A folder of the host has names that
folders of a host can have. -/
def Act.Possible (d : Drive) : Act → Prop
  | .emptyDir _ => True
  | .cpHostToFs src => NamedNode src
  | .insert root _ ent => root ∈ d.roots ∧ ent ∈ d.ents
  | .walk root _ | .copy root _ _ | .move root _ _ | .remove root _ => root ∈ d.roots

def Drive.Possible : Drive → List Act → Prop
  | _, [] => True
  | d, act :: acts => act.Possible d ∧ Drive.Possible (d.after sha256 room act) acts

/-- The new entry gets a name that `Walk` looks up, and is not put beside an entry of this
name that is of the other kind. -/
def Fits (s : List Bytes) (root : Hash) (destPath : Bytes) (ent : DirEnt) : Prop :=
  Proper (renamed destPath ent).entName ∧
    ∀ a, (exec (memStore sha256) (walk room root
      (slash :: joinPath (dirElems destPath ++ [(renamed destPath ent).entName]))) () s).1 = .ok a →
      a.isDir = ent.isDir

def Act.Careful (d : Drive) : Act → Prop
  | .insert root destPath ent => Fits sha256 room d.store root destPath ent
  | .copy root destPath srcPath | .move root destPath srcPath =>
    ∀ ent, (exec (memStore sha256) (FileTrees.walk room root srcPath) () d.store).1 = .ok ent →
      Fits sha256 room d.store root destPath ent
  | .emptyDir _ | .cpHostToFs _ | .walk _ _ | .remove _ _ => True

def Drive.Careful : Drive → List Act → Prop
  | _, [] => True
  | d, act :: acts => act.Careful sha256 room d ∧ Drive.Careful (d.after sha256 room act) acts

/-- The directory is in the tree, and this is its path. -/
inductive Within (s : List Bytes) (root : Hash) : List Bytes → Hash → Prop
  | root : Within s root [] root
  | child {path : List Bytes} {h : Hash} {dot e : DirEnt} {ents : List DirEnt} (hin : Within s root path h)
      (hread : (exec (memStore sha256) (readDir (ω := Unit) room h) () s).1 = .ok (dot :: ents))
      (he : e ∈ ents) (hdir : e.isDir = true) : Within s root (path ++ [e.entName]) e.htree.data

/-- Every directory has one entry `.`, which is the first, and none with the name `..`, and
`Walk` finds the others on their paths. -/
def Tidy (s : List Bytes) (root : Hash) : Prop :=
  ∀ path h, Within sha256 room s root path h → ∃ dot ents,
    (exec (memStore sha256) (readDir (ω := Unit) room h) () s).1 = .ok (dot :: ents) ∧
    dot.entName = ascii "." ∧ ∀ e ∈ ents, e.entName ≠ ascii "." ∧ e.entName ≠ ascii ".." ∧
      (exec (memStore sha256) (walk room root (slash :: joinPath (path ++ [e.entName]))) () s).1 =
        .ok e

end Model

section Tidy

variable {sha256 : Bytes → Hash} {room : ℕ → ℕ} {s : List Bytes} {root h : Hash} {path : List Bytes}

theorem resolves_of_within {t : HTree} (mode : UInt32) (hinj : Set.InjOn sha256 {c | c ∈ s})
    (htree : DirTree (Stored sha256 s) Named t.data) (hin : Within sha256 room s t.data path h) :
    DirTree (Stored sha256 s) Named h ∧ (∀ n ∈ path, Proper n) ∧
      ∃ a, (links (functional_stored hinj)).Resolves (rootEnt mode t) path (.ok a) ∧
        a.isDir = true ∧ a.htree.data = h := by
  induction hin with
  | root => exact ⟨htree, by simp, rootEnt mode t, .here _, isDir_rootEnt mode t, rfl⟩
  | @child path h dot e ents _ hread he hdir ih =>
    obtain ⟨hsub, hproper, a, ha, hadir, rfl⟩ := ih
    generalize hu : a.htree.data = k at hsub
    cases hsub with
    | @intro u mode' ents' hf hnamed hbelow =>
      rw [hu, readDir_folder room () hinj hf, Except.ok.injEq, List.cons.injEq] at hread
      obtain ⟨-, rfl⟩ := hread
      have hlisting := hf.listing (functional_stored hinj) hu.symm
      refine ⟨hbelow e he hdir, ?_, e, ?_, hdir, rfl⟩
      · intro n hn
        rcases mem_append.mp hn with hn | hn
        · exact hproper n hn
        · rw [mem_singleton.mp hn]
          exact hnamed.proper e he
      · apply ha.append
        exact .step (folder_eq_some hadir) hlisting (findEnt_of_mem hnamed.distinct he) (.here e)

theorem tidy_of_dirTree (hinj : Set.InjOn sha256 {c | c ∈ s}) (htree : DirTree (Stored sha256 s) Named root) :
    Tidy sha256 room s root := by
  intro path h hin
  have hroot := htree
  cases hroot with
  | @intro t mode ents hf _ _ =>
    obtain ⟨hsub, hproper, a, ha, hadir, rfl⟩ := resolves_of_within mode hinj htree hin
    generalize hu : a.htree.data = k at hsub
    cases hsub with
    | @intro u mode' ents' hf' hnamed _ =>
      refine ⟨rootEnt mode' u, ents', ?_, rfl, fun e he => ?_⟩
      · rw [readDir_folder room () hinj hf']
      · have he' := hnamed.proper e he
        refine ⟨he'.ne_dot, he'.ne_dotdot, ?_⟩
        have helems : elems (slash :: joinPath (path ++ [e.entName])) = path ++ [e.entName] := by
          apply elems_clean
          intro n hn
          rcases mem_append.mp hn with hn | hn
          · exact hproper n hn
          · rw [mem_singleton.mp hn]
            exact he'
        have hlisting := hf'.listing (functional_stored hinj) hu.symm
        have hfound := ha.append (.step (folder_eq_some hadir) hlisting (findEnt_of_mem hnamed.distinct he) (.here e))
        rw [← helems] at hfound
        rw [exec_walk room () hinj hf hfound]
        rfl

end Tidy

section Names

variable {stored : Hash → Bytes → Prop} {sha256 : Bytes → Hash} {ent : DirEnt} {ents : List DirEnt}
  {name : Bytes} {u u' : HTree}

theorem named_setTree (t : HTree) (h : Named ents) : Named (setTree name t ents) := by
  constructor
  · intro e he
    obtain ⟨a, ha, rfl | rfl⟩ := mem_setTree he
    · exact h.proper e ha
    · exact h.proper a ha
  · rw [map_entName_setTree]
    exact h.distinct

theorem named_insert (h : Named ents) (hent : Proper ent.entName)
    (hnew : findEnt ents ent.entName = none) : Named (ents.orderedInsert Before ent) := by
  have hperm : (ents.orderedInsert Before ent).Perm (ent :: ents) := perm_orderedInsert _ _ _
  constructor
  · intro e he
    rcases mem_cons.mp (hperm.mem_iff.mp he) with rfl | he
    · exact hent
    · exact h.proper e he
  · rw [(hperm.map DirEnt.entName).nodup_iff, map_cons, nodup_cons]
    refine ⟨fun hmem => ?_, h.distinct⟩
    obtain ⟨a, ha, hname⟩ := mem_map.mp hmem
    rw [← hname, findEnt_of_mem h.distinct ha] at hnew
    simp at hnew

theorem named_without (h : Named ents) : Named (without name ents) := by
  constructor
  · intro e he
    exact h.proper e (mem_filter.mp he).1
  · exact h.distinct.sublist (filter_sublist.map DirEnt.entName)

theorem tree_of_removed (hfun : Functional stored) (h : Removed sha256 name stored u u')
    (hu : (links hfun).Tree (fun d => Named d.ents) u) : (links hfun).Tree (fun d => Named d.ents) u' := by
  cases hu with
  | @intro _ d hd hnamed hsub =>
    refine .intro (listing_of_removed hfun h hd).1 (named_without hnamed) (fun n e t hn ht => ?_)
    by_cases hname : n = name
    · subst hname
      have hgone : findEnt (without n d.ents) n = none := findEnt_without_self d.ents
      exact absurd (hgone.symm.trans hn) (by simp)
    · exact hsub n e t ((findEnt_without_of_ne d.ents hname).symm.trans hn) ht

end Names

section Step

variable {sha256 : Bytes → Hash} {room : ℕ → ℕ} {s s' : List Bytes} {root : Hash} {e r : DirEnt}

/-- The entry can be the root of a tree, or stand for a file. -/
structure Usable (sha256 : Bytes → Hash) (s : List Bytes) (e : DirEnt) : Prop where
  depth : e.htree.depth < 256
  tree : e.isDir = true → DirTree (Stored sha256 s) Named e.htree.data

theorem Usable.grows (h : Usable sha256 s e) (hgrow : ∃ ws, s' = ws ++ s) : Usable sha256 s' e :=
  ⟨h.depth, fun hdir => (h.tree hdir).mono (stored_grows sha256 hgrow) (fun _ hq => hq)⟩

theorem emptyDir_usable {mode : UInt32} (hrun : exec (memStore sha256) (emptyDir mode) () s = (.ok r, (), s')) :
    DirTree (Stored sha256 s') Named r.htree.data ∧ Usable sha256 s' r := by
  obtain ⟨-, -, hdepth, hf⟩ := writeDir_folder (by simp) hrun
  have htree : DirTree (Stored sha256 s') Named r.htree.data :=
    .intro hf ⟨by simp [sortEnts], by simp [sortEnts]⟩ (by simp [sortEnts])
  exact ⟨htree, Nat.lt_of_le_of_lt hdepth (by decide), fun _ => htree⟩

theorem cpHostToFs_usable {src : HostNode} (hsrc : NamedNode src)
    (hrun : exec (memStore sha256) (cpHostToFs src) () s = (.ok r, (), s')) : Usable sha256 s' r := by
  rw [cpHostToFs] at hrun
  cases hdir : isDirMode src.info.mode with
  | true =>
    rw [if_pos hdir] at hrun
    obtain ⟨-, hdepth, ⟨info, mode, ents, hnode, -⟩, hsaved⟩ := hostDir_saved src hrun
    exact ⟨hdepth, fun _ => dirTree_of_saved src _ hsrc hsaved ⟨info, mode, ents, hnode⟩⟩
  | false =>
    rw [if_neg (by rw [hdir]; exact Bool.false_ne_true)] at hrun
    obtain ⟨t, w, s₁, hfile, hpure⟩ := exec_bind_eq_ok hrun
    cases hpure
    obtain ⟨-, hdepth, -, -⟩ := hostFile_saved hfile
    exact ⟨hdepth, fun h => absurd (hdir.symm.trans h) Bool.false_ne_true⟩

theorem walk_usable {fpath : Bytes} (hinj : Set.InjOn sha256 {c | c ∈ s})
    (htree : DirTree (Stored sha256 s) Named root)
    (hrun : exec (memStore sha256) (walk room root fpath) () s = (.ok e, (), s')) : s' = s ∧ Usable sha256 s e := by
  have hroot := htree
  cases hroot with
  | @intro t mode ents hf _ _ =>
    obtain ⟨hfound, -, rfl⟩ := resolves_of_walk room hinj hf htree hrun
    refine ⟨rfl, ?_, fun hdir => ?_⟩
    · rcases List.eq_nil_or_concat' (elems fpath) with hnil | ⟨path, name, hpath⟩
      · rw [hnil] at hfound
        cases hfound
        have hdepth := hf.tree.depth_lt
        rw [nlevels] at hdepth
        exact Nat.lt_trans (Nat.lt_of_succ_lt hdepth) (by decide)
      · rw [hpath] at hfound
        exact (encodable_of_resolves hfound).depth
    · exact dirTree_of_tree ((htree.tree (functional_stored hinj)).of_resolves
        (folder_rootEnt _ mode t) hfound (folder_eq_some hdir))

variable (hinj' : Set.InjOn sha256 {c | c ∈ s'}) (htree : DirTree (Stored sha256 s) Named root)
include hinj' htree

theorem insert_named {destPath : Bytes} (he : Usable sha256 s e) (hfits : Fits sha256 room s root destPath e)
    (hrun : exec (memStore sha256) (FileTrees.insert room root destPath e) () s = (.ok r, (), s')) :
    DirTree (Stored sha256 s') Named r.htree.data := by
  have hinj := injOn_of_exec hrun hinj'
  obtain ⟨hproper, hkind⟩ := hfits
  have hroot := htree
  cases hroot with
  | @intro t mode ents hf _ _ =>
    have hwritten := insert_edits room destPath he.depth t () () s s' r hinj hinj'
      ((htree.tree _).mono (.refl _) (fun _ _ => trivial)) hrun
    have hfolder := folder_rootEnt (functional_stored hinj') mode t
    obtain ⟨a, u, u', ha, hu, hins, -⟩ := hwritten.edited.target hfolder
    obtain ⟨d, hd⟩ := listing_of_inserted (functional_stored hinj') hins
    have helems : elems (slash :: joinPath (dirElems destPath ++ [(renamed destPath e).entName])) =
        dirElems destPath ++ [(renamed destPath e).entName] := by
      apply elems_clean
      intro n hn
      rcases mem_append.mp hn with hn | hn
      · exact proper_dirElems destPath n hn
      · rw [mem_singleton.mp hn]
        exact hproper
    -- an entry of the same kind is refused, and one of the other kind would have been found
    have hnew : findEnt d.ents (renamed destPath e).entName = none := by
      cases hfind : findEnt d.ents (renamed destPath e).entName with
      | none => rfl
      | some f =>
        have hfound := ha.append (.step hu hd hfind (.here f))
        rw [← helems] at hfound
        have hwalk := exec_walk_before room () hinj' hwritten.grows hf htree hfound
        have hsame := hkind f (congrArg Prod.fst hwalk)
        have hapart := apart_of_inserted (functional_stored hinj') hins hd (mem_of_findEnt hfind).1
        refine absurd (mem_of_findEnt hfind).2.symm (hapart ?_)
        rw [TreeMove.isDir_renamed, hsame]
    have hedit : (links (functional_stored hinj')).Edited
        (fun u u' => Inserted (renamed destPath e) (Stored sha256 s') u u' ∧
          ∀ d, (links (functional_stored hinj')).contents u d →
            findEnt d.ents (renamed destPath e).entName = none) (dirElems destPath) t r.htree := by
      apply hwritten.edited.imp hfolder ha hu
      intro u' hins
      refine ⟨hins, fun d' hd' => ?_⟩
      rw [(links (functional_stored hinj')).unique _ _ _ hd' hd, hnew]
    have hsub : (renamed destPath e).isDir = true →
        (links (functional_stored hinj')).Tree (fun d => Named d.ents) (renamed destPath e).htree := by
      intro hdir
      rw [TreeMove.isDir_renamed] at hdir
      rw [show (renamed destPath e).htree = e.htree by rw [renamed]; split <;> rfl]
      exact ((he.grows hwritten.grows).tree hdir).tree _
    have hold := (htree.mono (stored_grows sha256 hwritten.grows) (fun _ hq => hq)).tree (functional_stored hinj')
    apply dirTree_of_tree
    apply hedit.tree _ (fun d n a u hd _ => named_setTree u hd) hold
    intro u u' hins hu
    exact tree_of_inserted _ hins.1 (fun d hd hnamed => named_insert hnamed hproper (hins.2 d hd)) hsub hu

theorem copy_named {destPath srcPath : Bytes}
    (hfits : ∀ e, (exec (memStore sha256) (walk room root srcPath) () s).1 = .ok e → Fits sha256 room s root destPath e)
    (hrun : exec (memStore sha256) (copy room root destPath srcPath) () s = (.ok r, (), s')) :
    DirTree (Stored sha256 s') Named r.htree.data := by
  obtain ⟨e, w, s₁, hwalk, hinsert⟩ := exec_bind_eq_ok hrun
  obtain ⟨rfl, he⟩ := walk_usable (injOn_of_exec hrun hinj') htree hwalk
  exact insert_named hinj' htree he (hfits e (congrArg Prod.fst hwalk)) hinsert

theorem remove_named {filePath : Bytes}
    (hrun : exec (memStore sha256) (remove room root filePath) () s = (.ok r, (), s')) :
    DirTree (Stored sha256 s') Named r.htree.data := by
  have hinj := injOn_of_exec hrun hinj'
  rcases List.eq_nil_or_concat' (elems filePath) with hnil | ⟨path, name, hpath⟩
  · rw [remove_root room hnil] at hrun
    simp at hrun
  · have hroot := htree
    cases hroot with
    | @intro t mode ents hf _ _ =>
      have hwritten := remove_edits room hpath t () () s s' r hinj hinj'
        ((htree.tree _).mono (.refl _) (fun _ _ => trivial)) hrun
      have hold := (htree.mono (stored_grows sha256 hwritten.grows) (fun _ hq => hq)).tree (functional_stored hinj')
      apply dirTree_of_tree
      apply hwritten.edited.tree _ (fun d n a u hd _ => named_setTree u hd) hold
      intro u u' hrem hu
      exact tree_of_removed _ hrem hu

theorem move_named {destPath srcPath : Bytes}
    (hfits : ∀ e, (exec (memStore sha256) (walk room root srcPath) () s).1 = .ok e → Fits sha256 room s root destPath e)
    (hrun : exec (memStore sha256) (move room root destPath srcPath) () s = (.ok r, (), s')) :
    DirTree (Stored sha256 s') Named r.htree.data := by
  obtain ⟨copyRoot, w, s₁, hcopy, hremove⟩ := exec_bind_eq_ok hrun
  exact remove_named hinj' (copy_named (injOn_of_exec hremove hinj') htree hfits hcopy) hremove

end Step

section Run

variable {sha256 : Bytes → Hash} {room : ℕ → ℕ} {d : Drive}

/-- All trees of the drive have proper and distinct names. -/
structure Sound (sha256 : Bytes → Hash) (d : Drive) : Prop where
  roots : ∀ h ∈ d.roots, DirTree (Stored sha256 d.store) Named h
  ents : ∀ e ∈ d.ents, Usable sha256 d.store e

theorem Sound.grows {s : List Bytes} (h : Sound sha256 d) (hgrow : ∃ ws, s = ws ++ d.store) :
    Sound sha256 { d with store := s } :=
  ⟨fun k hk => (h.roots k hk).mono (stored_grows sha256 hgrow) (fun _ hq => hq),
    fun e he => (h.ents e he).grows hgrow⟩

theorem Sound.addRoot {k : Hash} (h : Sound sha256 d) (hk : DirTree (Stored sha256 d.store) Named k) :
    Sound sha256 { d with roots := k :: d.roots } :=
  ⟨forall_mem_cons.mpr ⟨hk, h.roots⟩, h.ents⟩

theorem Sound.addEnt {e : DirEnt} (h : Sound sha256 d) (he : Usable sha256 d.store e) :
    Sound sha256 { d with ents := e :: d.ents } :=
  ⟨h.roots, forall_mem_cons.mpr ⟨he, h.ents⟩⟩

theorem store_after (act : Act) :
    (d.after sha256 room act).store = (exec (memStore sha256) (act.call room) () d.store).2.2 := by
  rw [Drive.after]
  rcases exec (memStore sha256) (act.call room) () d.store with ⟨x, w, s⟩
  cases x with
  | error e => rfl
  | ok e => cases act <;> rfl

theorem sound_after {act : Act} (hinj : Set.InjOn sha256 {c | c ∈ (d.after sha256 room act).store})
    (hpossible : act.Possible d) (hcareful : act.Careful sha256 room d) (h : Sound sha256 d) :
    Sound sha256 (d.after sha256 room act) := by
  rw [store_after] at hinj
  rw [Drive.after]
  rcases hrun : exec (memStore sha256) (act.call room) () d.store with ⟨x, w, s⟩
  rw [hrun] at hinj
  have hgrow := exec_grows hrun
  have hkept := h.grows hgrow
  have hinj₀ := injOn_of_exec hrun hinj
  cases x with
  | error e => exact hkept
  | ok e =>
    cases act with
    | emptyDir mode =>
      obtain ⟨htree, hent⟩ := emptyDir_usable hrun
      exact (hkept.addEnt hent).addRoot htree
    | cpHostToFs src => exact hkept.addEnt (cpHostToFs_usable hpossible hrun)
    | walk root fpath =>
      obtain ⟨hsame, hent⟩ := walk_usable hinj₀ (h.roots root hpossible) hrun
      exact hkept.addEnt (hent.grows hgrow)
    | insert root destPath ent =>
      exact hkept.addRoot (insert_named hinj (h.roots root hpossible.1) (h.ents ent hpossible.2) hcareful hrun)
    | copy root destPath srcPath =>
      exact hkept.addRoot (copy_named hinj (h.roots root hpossible) hcareful hrun)
    | move root destPath srcPath =>
      exact hkept.addRoot (move_named hinj (h.roots root hpossible) hcareful hrun)
    | remove root filePath => exact hkept.addRoot (remove_named hinj (h.roots root hpossible) hrun)

theorem run_grows (acts : List Act) : ∃ ws, (d.run sha256 room acts).store = ws ++ d.store := by
  induction acts generalizing d with
  | nil => exact ⟨[], rfl⟩
  | cons act acts ih =>
    obtain ⟨ws, hws⟩ := ih (d := d.after sha256 room act)
    have hstep : ∃ ws', (d.after sha256 room act).store = ws' ++ d.store := by
      rw [store_after]
      exact exec_grows rfl
    obtain ⟨ws', hws'⟩ := hstep
    exact ⟨ws ++ ws', by rw [Drive.run, hws, hws', append_assoc]⟩

theorem sound_run {acts : List Act} (hinj : Set.InjOn sha256 {c | c ∈ (d.run sha256 room acts).store})
    (hpossible : d.Possible sha256 room acts) (hcareful : d.Careful sha256 room acts)
    (h : Sound sha256 d) : Sound sha256 (d.run sha256 room acts) := by
  induction acts generalizing d with
  | nil => exact h
  | cons act acts ih =>
    apply ih hinj hpossible.2 hcareful.2
    apply sound_after _ hpossible.1 hcareful.1 h
    have hgrow : ∃ ws, ((d.after sha256 room act).run sha256 room acts).store =
        ws ++ (d.after sha256 room act).store := run_grows acts
    obtain ⟨ws, hws⟩ := hgrow
    apply hinj.mono
    intro c hc
    have hmem : c ∈ ws ++ (d.after sha256 room act).store := mem_append_right ws hc
    rw [← hws] at hmem
    exact hmem

/-- A drive with no trees. -/
def newDrive (s : List Bytes) : Drive := ⟨s, [], []⟩

theorem drive_tidy (s : List Bytes) (acts : List Act)
    (hinj : Set.InjOn sha256 {c | c ∈ ((newDrive s).run sha256 room acts).store})
    (hpossible : (newDrive s).Possible sha256 room acts)
    (hcareful : (newDrive s).Careful sha256 room acts) :
    ∀ root ∈ ((newDrive s).run sha256 room acts).roots,
      Tidy sha256 room ((newDrive s).run sha256 room acts).store root := by
  intro root hroot
  have hsound := sound_run hinj hpossible hcareful ⟨by simp [newDrive], by simp [newDrive]⟩
  exact tidy_of_dirTree hinj (hsound.roots root hroot)

def nested (destPath : Bytes) : List Act :=
  [.emptyDir 0, .insert (sumHash (dirChunk 0 [])) destPath (rootEnt 0 ⟨0, sumHash (dirChunk 0 [])⟩)]

theorem after_emptyDir : (newDrive []).after sumHash id (.emptyDir 0) =
    ⟨[dirChunk 0 []], [sumHash (dirChunk 0 [])], [rootEnt 0 ⟨0, sumHash (dirChunk 0 [])⟩]⟩ := by
  decide +kernel

theorem possible_nested (destPath : Bytes) : (newDrive []).Possible sumHash id (nested destPath) := by
  rw [nested, Drive.Possible, after_emptyDir]
  exact ⟨trivial, ⟨mem_cons_self, mem_cons_self⟩, trivial⟩

theorem run_nested (name destPath : Bytes)
    (h : exec (memStore sumHash) (FileTrees.insert id (sumHash (dirChunk 0 [])) destPath
      (rootEnt 0 ⟨0, sumHash (dirChunk 0 [])⟩)) () [dirChunk 0 []] =
      (.ok (rootEnt 0 ⟨0, sumHash (dirChunk 0 [folderEnt name []])⟩), (),
        [dirChunk 0 [folderEnt name []], dirChunk 0 []])) :
    (newDrive []).run sumHash id (nested destPath) = ⟨[dirChunk 0 [folderEnt name []], dirChunk 0 []],
        [sumHash (dirChunk 0 [folderEnt name []]), sumHash (dirChunk 0 [])],
        [rootEnt 0 ⟨0, sumHash (dirChunk 0 [])⟩]⟩ := by
  rw [nested, Drive.run, after_emptyDir, Drive.run, Drive.run, Drive.after, Act.call, h]
  rfl

theorem drive_tidy_folder :
    Tidy sumHash id ((newDrive []).run sumHash id (nested (ascii "/a"))).store
      (sumHash (dirChunk 0 [folderEnt (ascii "a") []])) := by
  have hrun := run_nested (ascii "a") (ascii "/a") (by decide +kernel)
  have habsent : (exec (memStore sumHash) (walk id (sumHash (dirChunk 0 [])) (ascii "/a")) ()
      [dirChunk 0 []]).1 = .error (.format "no such directory: %s" (ascii "a")) := by
    decide +kernel
  apply drive_tidy [] (nested (ascii "/a")) _ (possible_nested _) _
  · rw [hrun]
    exact List.mem_cons_self
  · rw [hrun]
    exact injOn_of_list (by decide +kernel)
  · rw [nested, Drive.Careful, after_emptyDir]
    refine ⟨trivial, ⟨by decide, fun a ha => ?_⟩, trivial⟩
    have hpath : slash :: joinPath (dirElems (ascii "/a") ++
        [(renamed (ascii "/a") (rootEnt 0 ⟨0, sumHash (dirChunk 0 [])⟩)).entName]) = ascii "/a" := by
      decide
    rw [hpath, habsent] at ha
    cases ha

/-- A directory gets an entry with the name `..`. -/
theorem insert_dotdot :
    (newDrive []).Possible sumHash id (nested (ascii "/..")) ∧
    Set.InjOn sumHash {c | c ∈ ((newDrive []).run sumHash id (nested (ascii "/.."))).store} ∧
    ∃ root ∈ ((newDrive []).run sumHash id (nested (ascii "/.."))).roots,
      (exec (memStore sumHash) (readDir id root) ()
        ((newDrive []).run sumHash id (nested (ascii "/.."))).store).1 =
        .ok [rootEnt 0 ⟨0, root⟩, folderEnt (ascii "..") []] ∧
      ¬ Tidy sumHash id ((newDrive []).run sumHash id (nested (ascii "/.."))).store root := by
  have hrun := run_nested (ascii "..") (ascii "/..") (by decide +kernel)
  have hread : (exec (memStore sumHash) (readDir id (sumHash (dirChunk 0 [folderEnt (ascii "..") []])))
      () [dirChunk 0 [folderEnt (ascii "..") []], dirChunk 0 []]).1 =
      .ok [rootEnt 0 ⟨0, sumHash (dirChunk 0 [folderEnt (ascii "..") []])⟩, folderEnt (ascii "..") []] := by
    decide +kernel
  rw [hrun]
  refine ⟨possible_nested _, injOn_of_list (by decide +kernel), _, List.mem_cons_self, hread, fun htidy => ?_⟩
  obtain ⟨dot, ents, hents, -, hnames⟩ := htidy [] _ .root
  rw [hread, Except.ok.injEq, List.cons.injEq] at hents
  obtain ⟨-, rfl⟩ := hents
  exact (hnames _ List.mem_cons_self).2.1 rfl

end Run

end Bpy.DriveNames
