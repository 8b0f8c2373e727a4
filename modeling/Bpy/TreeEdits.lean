import Bpy.DirTrees

/-!
# Changing a tree of directories

`insert` and `remove` change one directory of a tree and write the directories above it
again. `Edits` says this of a method: what it does to the last directory is a relation,
and above it only the links change. In a directory on the way the entries keep their
order, since the order does not depend on what they refer to.
-/
namespace Bpy.TreeEdits
open ByteWords InteractionPrograms ContentStore HashTreeWriter HashTreeStreams Directories
open FileTrees PathElements LinkedFolders ObjectGraph DirTrees Method
open List hiding insert_eq

section SetTree

variable {ents : List DirEnt} {name : Bytes} {t : HTree}

theorem mem_setTree {e : DirEnt} (he : e ∈ setTree name t ents) : ∃ a ∈ ents, e = a ∨ e = { a with htree := t } := by
  induction ents with
  | nil => simp [setTree] at he
  | cons a ents ih =>
    rw [setTree] at he
    split at he
    · rcases mem_cons.mp he with rfl | he
      · exact ⟨a, mem_cons_self, Or.inr rfl⟩
      · exact ⟨e, mem_cons_of_mem a he, Or.inl rfl⟩
    · rcases mem_cons.mp he with rfl | he
      · exact ⟨e, mem_cons_self, Or.inl rfl⟩
      · obtain ⟨b, hb, heb⟩ := ih he
        exact ⟨b, mem_cons_of_mem a hb, heb⟩

theorem pairwise_setTree (h : ents.Pairwise Before) : (setTree name t ents).Pairwise Before := by
  induction h with
  | nil => exact List.Pairwise.nil
  | @cons a ents ha h ih =>
    rw [setTree]
    split
    · exact List.Pairwise.cons ha h
    · apply List.Pairwise.cons _ ih
      intro e he
      obtain ⟨b, hb, rfl | rfl⟩ := mem_setTree he
      · exact ha e hb
      · exact ha b hb

theorem map_entName_setTree : (setTree name t ents).map DirEnt.entName = ents.map DirEnt.entName := by
  induction ents with
  | nil => rfl
  | cons a ents ih =>
    rw [setTree]
    split
    · rfl
    · rw [map_cons, ih, map_cons]

theorem encodable_setTree (name : Bytes) (hents : ∀ e ∈ ents, e.Encodable) (ht : t.depth < 256) :
    ∀ e ∈ setTree name t ents, e.Encodable := by
  intro e he
  obtain ⟨a, ha, rfl | rfl⟩ := mem_setTree he
  · exact hents e ha
  · exact ⟨(hents a ha).name, ht⟩

end SetTree

variable {ω : Type} {s s' : List Bytes} {mode : UInt32} {r : DirEnt}

section Write

variable {sha256 : Bytes → Hash} {w w' : ω}

variable {indir : List DirEnt}

theorem checkNames_of_writeDir (hwrite : exec (memStore sha256) (writeDir indir mode) w s = (.ok r, w', s')) :
    checkNames (sortEnts indir) = .ok () := by
  simp only [writeDir, exec_bind, exec_ofExcept] at hwrite
  cases hnames : checkNames (sortEnts indir) with
  | error e => simp [hnames] at hwrite
  | ok u => rfl

theorem writeDir_folder (hdepth : ∀ e ∈ indir, e.htree.depth < 256)
    (hwrite : exec (memStore sha256) (writeDir indir mode) w s = (.ok r, w', s')) :
    (∃ ws, s' = ws ++ s) ∧ r = rootEnt mode r.htree ∧ r.htree.depth ≤ 6 ∧
      Folder (Stored sha256 s') r.htree mode (sortEnts indir) := by
  obtain ⟨hgrow, hr, ht, htree, hnames⟩ := writeDir_ok hwrite
  refine ⟨hgrow, hr, ht, htree, fun e he => ?_, pairwise_sortEnts indir⟩
  exact ⟨hnames e (mem_sortEnts.mp he), hdepth e (mem_sortEnts.mp he)⟩

theorem writeDir_again {t : HTree} (hdepth : ∀ e ∈ indir, e.htree.depth < 256)
    (hwrite : exec (memStore sha256) (writeDir indir (rootEnt mode t).entMode) w s = (.ok r, w', s')) :
    (∃ ws, s' = ws ++ s) ∧ r = rootEnt mode r.htree ∧ r.htree.depth ≤ 6 ∧
      Folder (Stored sha256 s') r.htree mode (sortEnts indir) := by
  obtain ⟨hgrow, hr, ht, hf⟩ := writeDir_folder hdepth hwrite
  refine ⟨hgrow, ?_, ht, ?_, hf.encodable, hf.sorted⟩
  · rw [rootEnt, dotEnt_entMode] at hr
    exact hr
  · rw [← dotEnt_entMode mode t]
    exact hf.tree

end Write

section Edits

variable (sha256 : Bytes → Hash)

/-- What a change of the directory at a path leaves behind. -/
structure Written (P : (Hash → Bytes → Prop) → HTree → HTree → Prop) (path : List Bytes) (u : HTree)
    (s s' : List Bytes) (hinj' : Set.InjOn sha256 {c | c ∈ s'}) (r : DirEnt) : Prop where
  grows : ∃ ws, s' = ws ++ s
  depth : r.htree.depth ≤ 6
  root : ∃ t mode ents ents', t.data = u.data ∧ Folder (Stored sha256 s) t mode ents ∧
    Folder (Stored sha256 s') r.htree mode ents' ∧ r = rootEnt mode r.htree
  edited : (links (functional_stored hinj')).Edited (P (Stored sha256 s')) path u r.htree

/-- The method changes the directory at the path by `P`, and writes the directories above
it. -/
def Edits (P : (Hash → Bytes → Prop) → HTree → HTree → Prop) (path : List Bytes)
    (change : Hash → StoreM ω DirEnt) : Prop :=
  ∀ (u : HTree) (w w' : ω) (s s' : List Bytes) (r : DirEnt) (hinj : Set.InjOn sha256 {c | c ∈ s})
    (hinj' : Set.InjOn sha256 {c | c ∈ s'}),
    (links (functional_stored hinj)).Tree (fun _ => True) u →
    Method.exec (memStore sha256) (change u.data) w s = (.ok r, w', s') →
    Written sha256 P path u s s' hinj' r

variable {sha256} {P : (Hash → Bytes → Prop) → HTree → HTree → Prop} {path : List Bytes}
  {change : Hash → StoreM ω DirEnt} (room : ℕ → ℕ)

theorem exec_bind_eq_ok {α β : Type} {x : StoreM ω α} {f : α → StoreM ω β} {w w' : ω} {s s' : List Bytes} {b : β}
    (h : exec (memStore sha256) (x >>= f) w s = (.ok b, w', s')) :
    ∃ a w₁ s₁, exec (memStore sha256) x w s = (.ok a, w₁, s₁) ∧
      exec (memStore sha256) (f a) w₁ s₁ = (.ok b, w', s') := Method.exec_bind_eq_ok _ h

variable {elem : Bytes}

theorem newRoot_of_folders {u t : HTree} {ents : List DirEnt} {s s' : List Bytes}
    (h : ∃ t mode ents ents', t.data = u.data ∧ Folder (Stored sha256 s) t mode ents ∧
      Folder (Stored sha256 s') r.htree mode ents' ∧ r = rootEnt mode r.htree)
    (hinj : Set.InjOn sha256 {c | c ∈ s}) (hf : Folder (Stored sha256 s) t mode ents)
    (htu : t.data = u.data) :
    r = rootEnt mode r.htree ∧ ∃ ents', Folder (Stored sha256 s') r.htree mode ents' := by
  obtain ⟨t₁, mode₁, ents₁, ents', ht₁, hf₁, hf', hr⟩ := h
  obtain ⟨-, hmode, -⟩ := hf.unique (functional_stored hinj) hf₁ (htu.trans ht₁.symm)
  refine ⟨?_, ents', ?_, hf'.encodable, hf'.sorted⟩
  · rw [rootEnt, hmode]
    exact hr
  · rw [hmode]
    exact hf'.tree

theorem Written.newRoot {u t : HTree} {ents : List DirEnt} {s s' : List Bytes}
    {hinj' : Set.InjOn sha256 {c | c ∈ s'}} (h : Written sha256 P path u s s' hinj' r)
    (hinj : Set.InjOn sha256 {c | c ∈ s}) (hf : Folder (Stored sha256 s) t mode ents) (htu : t.data = u.data) :
    r = rootEnt mode r.htree ∧ ∃ ents', Folder (Stored sha256 s') r.htree mode ents' :=
  newRoot_of_folders h.root hinj hf htu

theorem exec_changeFolder {t : HTree} {ents : List DirEnt} {s : List Bytes} (w : ω)
    (hinj : Set.InjOn sha256 {c | c ∈ s}) (hf : Folder (Stored sha256 s) t mode ents) (helem : Proper elem) :
    exec (memStore sha256) (readDir room t.data >>= fun ents => changeFolder change elem ents) w s =
      match findEnt ents elem with
      | none => (.error (.format "no folder or file '%s'" elem), w, s)
      | some e =>
        if e.isDir then
          exec (memStore sha256) (change e.htree.data >>= fun newEnt =>
            writeDir (setTree elem newEnt.htree ents) (rootEnt mode t).entMode) w s
        else (.error (.format "%s is not a directory" e.entName), w, s) := by
  have hfind : findEnt (rootEnt mode t :: ents) elem = findEnt ents elem := findEnt_cons_of_ne helem.ne_dot.symm
  have hset : ∀ t', (setTree elem t' (rootEnt mode t :: ents)).tail = setTree elem t' ents := by
    intro t'
    rw [setTree, if_neg (fun h => helem.ne_dot h.symm), tail_cons]
  rw [exec_bind_ok _ (readDir_folder room w hinj hf)]
  simp only [changeFolder, hfind]
  cases findEnt ents elem with
  | none => rfl
  | some e =>
    dsimp only
    split
    · simp only [hset]
    · rfl

theorem Edits.deeper (hP : ∀ {stored stored' : Hash → Bytes → Prop}, (∀ h c, stored h c → stored' h c) →
      ∀ u u', P stored u u' → P stored' u u')
    (helem : Proper elem) (hchange : Edits sha256 P path change) :
    Edits sha256 P (elem :: path) (fun h => readDir room h >>= fun ents => changeFolder change elem ents) := by
  intro u w w' s s' r hinj hinj' htree hrun
  cases htree with
  | @intro _ d hd _ hsub =>
    obtain ⟨hm, t, htu, hf⟩ := hd
    obtain ⟨mode, ents⟩ := d
    dsimp only at hm hf
    rw [← htu, exec_changeFolder room w hinj hf helem] at hrun
    cases he : findEnt ents elem with
    | none => simp [he] at hrun
    | some e =>
      cases hdir : e.isDir with
      | false => simp [he, hdir] at hrun
      | true =>
        simp only [he, hdir, if_true] at hrun
        obtain ⟨newEnt, w₁, s₁, hnew, hwrite⟩ := exec_bind_eq_ok hrun
        have hinner := hchange e.htree w w₁ s s₁ newEnt hinj (injOn_of_exec hwrite hinj')
          (hsub elem e e.htree he (folder_eq_some hdir)) hnew
        have hents := encodable_setTree elem hf.encodable
          (show newEnt.htree.depth < 256 from Nat.lt_of_le_of_lt hinner.depth (by decide))
        obtain ⟨hgrow₁, hr, hdepth, hf'⟩ := writeDir_again (fun e he => (hents e he).depth) hwrite
        rw [sortEnts_eq (pairwise_setTree hf.sorted)] at hf'
        have hgrow := hinner.grows
        have hst₁ := stored_grows sha256 hgrow₁
        have hst := fun h c hc => hst₁ h c (stored_grows sha256 hgrow h c hc)
        refine ⟨?_, hdepth, ⟨t, mode, ents, _, htu, hf, hf', hr⟩, ?_⟩
        · obtain ⟨ws, rfl⟩ := hgrow
          obtain ⟨ws₁, rfl⟩ := hgrow₁
          exact ⟨ws₁ ++ ws, by simp⟩
        · have hd : (links (functional_stored hinj')).contents u ⟨mode, ents⟩ := ⟨hm, t, htu, hf.mono hst⟩
          have hd' : (links (functional_stored hinj')).contents r.htree
              ⟨mode, setTree elem newEnt.htree ents⟩ := ⟨hm, _, rfl, hf'⟩
          exact .deeper hd he (folder_eq_some hdir) (hinner.edited.mono (links_extends _ _ hst₁) (hP hst₁)) hd'

end Edits

section Insert

variable {sha256 : Bytes → Hash} (room : ℕ → ℕ)

/-- The entry `ent` is added to the directory. -/
def Inserted (ent : DirEnt) (stored : Hash → Bytes → Prop) (u u' : HTree) : Prop :=
  ∃ t mode ents, t.data = u.data ∧ Folder stored t mode ents ∧
    Folder stored u' mode (sortEnts (ent :: ents)) ∧ checkNames (sortEnts (ent :: ents)) = .ok ()

theorem Inserted.mono {ent : DirEnt} {stored stored' : Hash → Bytes → Prop} (hst : ∀ h c, stored h c → stored' h c)
    (u u' : HTree) (h : Inserted ent stored u u') : Inserted ent stored' u u' := by
  obtain ⟨t, mode, ents, ht, hf, hf', hnames⟩ := h
  exact ⟨t, mode, ents, ht, hf.mono hst, hf'.mono hst, hnames⟩

theorem insertAt_edits {ent : DirEnt} (hent : ent.htree.depth < 256) {path : List Bytes}
    (hpath : ∀ e ∈ path, Proper e) : Edits (ω := ω) sha256 (Inserted ent) path (insertAt room ent path) := by
  induction path with
  | nil =>
    intro u w w' s s' r hinj hinj' htree hrun
    cases htree with
    | @intro _ d hd _ hsub =>
      obtain ⟨hm, t, htu, hf⟩ := hd
      obtain ⟨mode, ents⟩ := d
      dsimp only at hm hf
      rw [insertAt, ← htu, exec_bind_ok _ (readDir_folder room w hinj hf)] at hrun
      have hdepth : ∀ e ∈ ent :: ents, e.htree.depth < 256 := by
        intro e he
        rcases mem_cons.mp he with rfl | he
        · exact hent
        · exact (hf.encodable e he).depth
      obtain ⟨hgrow, hr, hdepth', hf'⟩ := writeDir_again hdepth hrun
      refine ⟨hgrow, hdepth', ⟨t, mode, ents, _, htu, hf, hf', hr⟩, .here ?_⟩
      exact ⟨t, mode, ents, htu, hf.mono (stored_grows sha256 hgrow), hf', checkNames_of_writeDir hrun⟩
  | cons elem path ih =>
    have hrest := ih (fun e he => hpath e (mem_cons_of_mem elem he))
    exact hrest.deeper room Inserted.mono (hpath elem mem_cons_self)

/-- The entry with the name that `Insert` gives it. -/
def renamed (dst : Bytes) (ent : DirEnt) : DirEnt :=
  if base (rooted dst) = [] then ent else { ent with entName := base (rooted dst) }

theorem insert_eq (dest : Hash) (dst : Bytes) (ent : DirEnt) :
    FileTrees.insert (ω := ω) room dest dst ent = insertAt room (renamed dst ent) (dirElems dst) dest := by
  have hdir := trimLast_tail_splitPath (proper_dirElems dst)
  rw [FileTrees.insert]
  by_cases hslash : (rooted dst).getLast? = some slash
  · have hbase := (base_eq_nil_iff dst).mpr hslash
    have helems : elems dst = dirElems dst := by
      rw [elems_eq_cleanStep, hbase]
      rfl
    rw [← helems] at hdir
    rw [if_pos hslash, clean_rooted, hdir, renamed, if_pos hbase, helems]
  · have hbase := fun h => hslash ((base_eq_nil_iff dst).mp h)
    rw [if_neg hslash, dir_rooted, clean_clean (proper_dirElems dst), hdir, renamed, if_neg hbase]

theorem insert_edits (dst : Bytes) {ent : DirEnt} (hent : ent.htree.depth < 256) :
    Edits (ω := ω) sha256 (Inserted (renamed dst ent)) (dirElems dst) (fun h => FileTrees.insert room h dst ent) := by
  have hdepth : (renamed dst ent).htree.depth < 256 := by
    rw [renamed]
    split <;> exact hent
  simp only [insert_eq]
  exact insertAt_edits room hdepth (proper_dirElems dst)

end Insert

section Remove

variable {sha256 : Bytes → Hash} (room : ℕ → ℕ)

/-- The tree of the directory that `WriteDir` writes. -/
def listingTree (sha256 : Bytes → Hash) (mode : UInt32) (ents : List DirEnt) : Except GoError HTree :=
  (Method.exec (memStore sha256) (writeDir ents mode) () []).1.map DirEnt.htree

/-- The directory without the entries with the name. -/
def without (name : Bytes) (ents : List DirEnt) : List DirEnt := ents.filter (fun e => e.entName ≠ name)

/-- The entries with the name are taken out of the directory. -/
def Removed (sha256 : Bytes → Hash) (name : Bytes) (stored : Hash → Bytes → Prop) (u u' : HTree) : Prop :=
  ∃ t mode ents, t.data = u.data ∧ Folder stored t mode ents ∧ Folder stored u' mode (without name ents) ∧
    listingTree sha256 (mode ||| modeDir) (without name ents) = .ok u'

theorem Removed.mono {name : Bytes} {stored stored' : Hash → Bytes → Prop} (hst : ∀ h c, stored h c → stored' h c)
    (u u' : HTree) (h : Removed sha256 name stored u u') : Removed sha256 name stored' u u' := by
  obtain ⟨t, mode, ents, ht, hf, hf', hlist⟩ := h
  exact ⟨t, mode, ents, ht, hf.mono hst, hf'.mono hst, hlist⟩

theorem removeEnt_edits (name : Bytes) :
    Edits (ω := ω) sha256 (Removed sha256 name) [] (fun h => readDir room h >>= removeEnt name) := by
  intro u w w' s s' r hinj hinj' htree hrun
  cases htree with
  | @intro _ d hd _ hsub =>
    obtain ⟨hm, t, htu, hf⟩ := hd
    obtain ⟨mode, ents⟩ := d
    dsimp only at hm hf
    rw [← htu, exec_bind_ok _ (readDir_folder room w hinj hf), removeEnt] at hrun
    split at hrun
    · simp at hrun
    · simp only at hrun
      split at hrun
      · simp at hrun
      · obtain ⟨hgrow, hr, hdepth', hf'⟩ := writeDir_again
          (fun e he => (hf.encodable e (mem_filter.mp he).1).depth) hrun
        rw [sortEnts_eq (hf.sorted.filter _)] at hf'
        refine ⟨hgrow, hdepth', ⟨t, mode, ents, _, htu, hf, hf', hr⟩, .here ?_⟩
        refine ⟨t, mode, ents, htu, hf.mono (stored_grows sha256 hgrow), hf', ?_⟩
        have hsame := writeDir_anywhere sha256 (without name ents) (rootEnt mode t).entMode w s
        rw [without, hrun] at hsame
        exact congrArg (Except.map DirEnt.htree) hsame.symm

theorem remove_eq {p elem : Bytes} {rest : List Bytes} (hp : elems p = elem :: rest) (h : Hash) :
    remove (ω := ω) room h p = removeAt room elem rest h := by
  have hproper := proper_elems p
  have hne : slash :: joinPath (elems p) ≠ [slash] := by
    intro h
    have helems := elems_clean hproper
    rw [h, hp, show elems [slash] = [] by decide] at helems
    simp at helems
  rw [remove, clean_rooted, if_neg hne, trimLast_tail_splitPath hproper, hp]

theorem proper_above {p name : Bytes} {path : List Bytes} (hp : elems p = path ++ [name]) : ∀ e ∈ path, Proper e := by
  intro e he
  apply proper_elems p
  rw [hp]
  exact mem_append_left _ he

/-- What holds of taking an entry out of a directory, and of a change deeper down if it holds of the
change, holds of `remove`. -/
theorem remove_induction {C : List Bytes → (Hash → StoreM ω DirEnt) → Prop} {p name : Bytes} {path : List Bytes}
    (hp : elems p = path ++ [name]) (hlast : C [] (fun h => readDir room h >>= removeEnt name))
    (hdeeper : ∀ {elem path change}, Proper elem → C path change →
      C (elem :: path) (fun h => readDir room h >>= fun ents => changeFolder change elem ents)) :
    C path (fun h => remove room h p) := by
  have hat : ∀ {elem rest path}, elem :: rest = path ++ [name] → (∀ e ∈ path, Proper e) →
      C path (removeAt room elem rest) := by
    intro elem rest path hsplit hpath
    induction path generalizing elem rest with
    | nil =>
      cases hsplit
      exact hlast
    | cons a path ih =>
      cases rest with
      | nil => simp at hsplit
      | cons next rest =>
        simp only [cons_append, List.cons.injEq] at hsplit
        obtain ⟨rfl, hsplit⟩ := hsplit
        exact hdeeper (hpath elem mem_cons_self) (ih hsplit (fun e he => hpath e (mem_cons_of_mem elem he)))
  cases hsplit : elems p with
  | nil => simp [hsplit] at hp
  | cons elem rest =>
    simp only [remove_eq room hsplit]
    exact hat (hsplit.symm.trans hp) (proper_above hp)

theorem remove_edits {p name : Bytes} {path : List Bytes} (hp : elems p = path ++ [name]) :
    Edits (ω := ω) sha256 (Removed sha256 name) path (fun h => remove room h p) :=
  remove_induction room hp (removeEnt_edits room name) (fun helem h => h.deeper room Removed.mono helem)

theorem remove_root {p : Bytes} (hp : elems p = []) (h : Hash) :
    remove (ω := ω) room h p = raise (.text "cannot remove root directory") := by
  rw [remove, clean_rooted, hp]
  exact if_pos rfl

end Remove

section Before

variable (room : ℕ → ℕ) {sha256 : Bytes → Hash}

variable {Q : List DirEnt → Prop}

theorem exec_walk_before {t : HTree} {ents : List DirEnt} {q : Bytes} {x : Except (Failure Bytes DirEnt) DirEnt}
    (w : ω) (hinj' : Set.InjOn sha256 {c | c ∈ s'}) (hgrow : ∃ ws, s' = ws ++ s)
    (hf : Folder (Stored sha256 s) t mode ents) (htree : DirTree (Stored sha256 s) Q t.data)
    (hx : (links (functional_stored hinj')).Resolves (rootEnt mode t) (elems q) x) :
    exec (memStore sha256) (walk room t.data q) w s = (walkResult x, w, s) := by
  have hinj : Set.InjOn sha256 {c | c ∈ s} := by
    obtain ⟨ws, rfl⟩ := hgrow
    exact hinj'.mono (fun c hc => mem_append_right ws hc)
  obtain ⟨y, hy⟩ := (htree.tree (functional_stored hinj)).resolves (folder_eq_some (isDir_rootEnt mode t)) (elems q)
  have hext := links_extends (functional_stored hinj) (functional_stored hinj') (stored_grows sha256 hgrow)
  rw [← (hy.mono hext).unique hx]
  exact exec_walk room w hinj hf hy

theorem resolves_of_walk {t : HTree} {ents : List DirEnt}
    {q : Bytes} {e : DirEnt} {w w' : ω} (hinj : Set.InjOn sha256 {c | c ∈ s})
    (hf : Folder (Stored sha256 s) t mode ents) (htree : DirTree (Stored sha256 s) Q t.data)
    (hrun : exec (memStore sha256) (walk room t.data q) w s = (.ok e, w', s')) :
    (links (functional_stored hinj)).Resolves (rootEnt mode t) (elems q) (.ok e) ∧ w' = w ∧ s' = s := by
  obtain ⟨x, hx⟩ := (htree.tree (functional_stored hinj)).resolves (folder_eq_some (isDir_rootEnt mode t)) (elems q)
  rw [exec_walk room w hinj hf hx, Prod.mk.injEq, Prod.mk.injEq] at hrun
  obtain ⟨hres, rfl, rfl⟩ := hrun
  cases x with
  | error failure => cases failure <;> simp [walkResult] at hres
  | ok a =>
    simp only [walkResult, Except.ok.injEq] at hres
    subst hres
    exact ⟨hx, rfl, rfl⟩

end Before

end Bpy.TreeEdits
