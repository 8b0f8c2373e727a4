import Bpy.TreeRewrites

/-!
# When `fs.Remove` is exact

`Remove` finds out whether the entry is there by counting: the new directory has to be
shorter than the old one. It allocates the new directory for one entry less before, and
this fails in an empty directory.
-/
namespace Bpy.TreeRemove
open ByteWords InteractionPrograms ContentStore HashTreeWriter Directories
open FileTrees PathElements LinkedFolders ObjectGraph DirTrees TreeEdits TreeInsert TreeMove
open RewrittenFolders TreeRewrites Method
open List hiding after

section Missing

variable {ω : Type} (room : ℕ → ℕ) {sha256 : Bytes → Hash} {s : List Bytes}

/-- The path leads to a folder that is empty. -/
def LeadsToEmpty {stored : Hash → Bytes → Prop} (hfun : Functional stored) (e : DirEnt) (path : List Bytes) :
    Prop :=
  ∃ a d, (links hfun).Resolves e path (.ok a) ∧ a.isDir = true ∧ (links hfun).contents a.htree d ∧ d.ents = []

variable {name : Bytes} {e : DirEnt} {d : Listing}

theorem without_eq_self {ents : List DirEnt} (h : findEnt ents name = none) : without name ents = ents := by
  rw [without, filter_eq_self]
  intro a ha
  have hnone := find?_eq_none.mp h a ha
  simpa using hnone

theorem removeEnt_missing (w : ω) (hinj : Set.InjOn sha256 {c | c ∈ s}) (hdir : e.isDir = true)
    (hd : (links (functional_stored hinj)).contents e.htree d) (hn : findEnt d.ents name = none) :
    ∃ err, exec (memStore sha256) (readDir room e.htree.data >>= removeEnt name) w s = (.error err, w, s) ∧
      ((∃ msg, err = .panic msg) ↔ LeadsToEmpty (functional_stored hinj) e []) := by
  obtain ⟨-, t, ht, hf⟩ := id hd
  rw [← ht, exec_bind_ok _ (readDir_folder room w hinj hf), removeEnt]
  by_cases hempty : d.ents = []
  · rw [if_pos hempty]
    refine ⟨.panic "makeslice: cap out of range", rfl, ?_⟩
    simp only [GoError.panic.injEq, exists_eq', true_iff]
    exact ⟨e, d, .here e, hdir, hd, hempty⟩
  · rw [if_neg hempty]
    have hlong : (without name d.ents).length > d.ents.length - 1 := by
      rw [without_eq_self hn]
      have := length_pos_iff.mpr hempty
      omega
    refine ⟨.format "no file called '%s'" name, ?_, ?_⟩
    · exact congrArg (fun x => exec (memStore sha256) x w s) (if_pos hlong)
    · simp only [reduceCtorEq, exists_false, false_iff]
      intro h
      obtain ⟨a, d', ha, -, hd', hnil⟩ := h
      cases ha
      rw [(links _).unique _ _ _ hd' hd] at hnil
      exact hempty hnil

theorem leadsToEmpty_cons {stored : Hash → Bytes → Prop} {hfun : Functional stored} {elem : Bytes}
    {path : List Bytes} (hdir : e.isDir = true) (hd : (links hfun).contents e.htree d) :
    LeadsToEmpty hfun e (elem :: path) ↔ ∃ b, findEnt d.ents elem = some b ∧ LeadsToEmpty hfun b path := by
  constructor
  · intro h
    obtain ⟨a, d', ha, hrest⟩ := h
    rcases (Links.resolves_cons (folder_eq_some hdir) hd).mp ha with ⟨-, ha⟩ | ⟨b, hb, ha⟩
    · cases ha
    · exact ⟨b, hb, a, d', ha, hrest⟩
  · intro h
    obtain ⟨b, hb, a, d', ha, hrest⟩ := h
    exact ⟨a, d', .step (folder_eq_some hdir) hd hb ha, hrest⟩

theorem removeAt_missing {elem : Bytes} {rest path : List Bytes} {failure : Failure Bytes DirEnt} (w : ω)
    (hinj : Set.InjOn sha256 {c | c ∈ s}) (hsplit : elem :: rest = path ++ [name]) (hpath : ∀ n ∈ path, Proper n)
    (hdir : e.isDir = true) (hx : (links (functional_stored hinj)).Resolves e (elem :: rest) (.error failure)) :
    ∃ err, exec (memStore sha256) (removeAt room elem rest e.htree.data) w s = (.error err, w, s) ∧
      ((∃ msg, err = .panic msg) ↔ LeadsToEmpty (functional_stored hinj) e path) := by
  induction rest generalizing elem path e with
  | nil =>
    obtain ⟨rfl, rfl⟩ : path = [] ∧ name = elem := by
      cases path with
      | nil => simpa [eq_comm] using hsplit
      | cons a path => simp at hsplit
    cases hx with
    | notFolder hf => simp [folder_eq_some hdir] at hf
    | missing hf hd hn =>
      obtain ⟨-, rfl⟩ := isDir_of_folder hf
      exact removeEnt_missing room w hinj hdir hd hn
    | step _ _ _ h => cases h
  | cons next rest ih =>
    obtain ⟨path, rfl, hsplit'⟩ : ∃ path', path = elem :: path' ∧ next :: rest = path' ++ [name] := by
      cases path with
      | nil => simp at hsplit
      | cons a path =>
        simp only [cons_append, List.cons.injEq] at hsplit
        exact ⟨path, by rw [hsplit.1], hsplit.2⟩
    have helem := hpath elem mem_cons_self
    have hrest := fun n hn => hpath n (mem_cons_of_mem elem hn)
    rw [removeAt]
    cases hx with
    | notFolder hf => simp [folder_eq_some hdir] at hf
    | @missing _ _ d _ _ hf hd hn =>
      obtain ⟨-, rfl⟩ := isDir_of_folder hf
      have hnone : findEnt d.ents elem = none := hn
      obtain ⟨-, t, ht, hfold⟩ := id hd
      rw [← ht, exec_changeFolder room w hinj hfold helem, hnone]
      exact ⟨_, rfl, by simp [leadsToEmpty_cons hdir hd, hnone]⟩
    | @step _ b _ d _ _ _ hf hd hn h =>
      obtain ⟨-, rfl⟩ := isDir_of_folder hf
      have hsome : findEnt d.ents elem = some b := hn
      obtain ⟨-, t, ht, hfold⟩ := id hd
      rw [← ht, exec_changeFolder room w hinj hfold helem, hsome]
      simp only [leadsToEmpty_cons hdir hd, hsome, Option.some.injEq, exists_eq_left']
      cases hb : b.isDir with
      | false =>
        refine ⟨_, if_neg (by simp), ?_⟩
        simp only [reduceCtorEq, exists_false, false_iff]
        intro hempty
        obtain ⟨a, d', ha, hadir, -⟩ := hempty
        cases ha with
        | here => simp [hb] at hadir
        | step hf' _ _ _ => simp [links, hb] at hf'
      | true =>
        obtain ⟨err, hrun, hpanic⟩ := ih hsplit' hrest hb h
        refine ⟨err, ?_, hpanic⟩
        rw [if_pos rfl, exec_bind, hrun]

end Missing

section Exact

/-- `Remove` of `p` succeeds just if there is something to remove. Then `p` and all below
it are gone, and the entries above it change their hash tree only. -/
structure RemovesExactly (old : Bytes → Except GoError DirEnt) (res : Except GoError DirEnt)
    (new : DirEnt → Bytes → Except GoError DirEnt) (p : Bytes) : Prop where
  succeeds : (∃ r, res = .ok r) ↔ ∃ e, old p = .ok e
  gone : ∀ r, res = .ok r → ∀ q, elems p <+: elems q → ∀ e, new r q ≠ .ok e
  others : ∀ r, res = .ok r → ∀ q, ¬ elems p <+: elems q → ¬ elems q <+: elems p → new r q = old q
  above : ∀ r, res = .ok r → ∀ q, elems q <+: elems p → elems q ≠ elems p → ∃ a b,
    old q = .ok a ∧ new r q = .ok b ∧ b.entName = a.entName ∧ b.entSize = a.entSize ∧
      b.entMode = a.entMode ∧ b.entModTime = a.entModTime
  noPanic : ∀ msg, res ≠ .error (.panic msg)

variable {ω : Type} (room : ℕ → ℕ) {sha256 : Bytes → Hash} {s s' : List Bytes} {w w' : ω}

theorem remove_local {root : Hash} {p : Bytes} {r : DirEnt} {Q : List DirEnt → Prop}
    (hinj : Set.InjOn sha256 {c | c ∈ s'}) (htree : DirTree (Stored sha256 s) Q root)
    (hremove : exec (memStore sha256) (remove room root p) w s = (.ok r, w', s')) :
    (∀ q, elems p <+: elems q → ∀ e, (exec (memStore sha256) (walk room r.htree.data q) w' s').1 ≠ .ok e) ∧
    (∀ q, ¬ elems p <+: elems q → ¬ elems q <+: elems p →
      (exec (memStore sha256) (walk room r.htree.data q) w' s').1 =
        (exec (memStore sha256) (walk room root q) w s).1) ∧
    (∀ q, elems q <+: elems p → elems q ≠ elems p → ∃ a t, (exec (memStore sha256) (walk room root q) w s).1 = .ok a ∧
      (exec (memStore sha256) (walk room r.htree.data q) w' s').1 = .ok { a with htree := t }) := by
  have hinj₀ := injOn_of_exec hremove hinj
  rcases List.eq_nil_or_concat' (elems p) with hnil | ⟨path, name, hp⟩
  · rw [remove_root room hnil] at hremove
    simp at hremove
  · have hthere := htree
    cases hthere with
    | @intro t mode ents hf _ _ =>
      have hwritten := remove_edits room hp t w w' s s' r hinj₀ hinj
        ((htree.tree _).mono (.refl _) (fun _ _ => trivial)) hremove
      have hfolder : (links (functional_stored hinj)).folder (rootEnt mode t) = some t := folder_rootEnt _ mode t
      have hbefore := fun {q x} => exec_walk_before room (q := q) (x := x) w hinj hwritten.grows hf htree
      obtain ⟨-, ents', hf'⟩ := hwritten.newRoot hinj₀ hf rfl
      have hafter := fun {q x} => exec_walk room w' hinj (p := q) (x := x) hf'
      have hedit := hwritten.edited.mono (.refl _) (fun _ _ => rebound_of_removed (functional_stored hinj))
      rw [hp]
      refine ⟨?_, ?_, ?_⟩
      · intro q hbelow e he
        obtain ⟨below, hq⟩ := hbelow
        rw [append_assoc, singleton_append] at hq
        have hgone := hedit.at_removed (q := below) hfolder
        rw [hq] at hgone
        rw [hafter hgone] at he
        cases he
      · intro q hbelow habove
        obtain ⟨x, hx⟩ := (htree.tree (functional_stored hinj₀)).resolves (folder_rootEnt _ mode t) (elems q)
        have hx' := hx.mono (links_extends _ (functional_stored hinj) (stored_grows sha256 hwritten.grows))
        have hsame := hedit.aside hfolder hbelow habove hx'
        rw [hbefore hx', hafter hsame]
      · intro q habove hne
        obtain ⟨rest, hrest⟩ := (prefix_concat_iff.mp habove).resolve_left hne
        rw [← hrest] at hedit
        obtain ⟨a, u, u', ha, -, -, ha'⟩ := hedit.above hfolder
        exact ⟨a, u', congrArg Prod.fst (hbefore ha), congrArg Prod.fst (hafter ha')⟩

theorem exec_eq_of_fst {α : Type} {x : StoreM ω α} {a : Except GoError α} (h : (exec (memStore sha256) x w s).1 = a) :
    exec (memStore sha256) x w s = (a, (exec (memStore sha256) x w s).2.1, (exec (memStore sha256) x w s).2.2) := by
  rw [← h]

theorem not_leadsToEmpty_iff {Q : List DirEnt → Prop} {t : HTree} {mode : UInt32} {ents : List DirEnt}
    {path : List Bytes} (w : ω) (hinj : Set.InjOn sha256 {c | c ∈ s}) (hf : Folder (Stored sha256 s) t mode ents)
    (htree : DirTree (Stored sha256 s) Q t.data) (hpath : ∀ n ∈ path, Proper n) :
    ¬ LeadsToEmpty (functional_stored hinj) (rootEnt mode t) path ↔
      ∀ q a, elems q = path → (exec (memStore sha256) (walk room t.data q) w s).1 = .ok a →
        a.isDir = true → ∀ dot, (exec (memStore sha256) (readDir room a.htree.data) w s).1 ≠ .ok [dot] := by
  constructor
  · intro hnot q a hq hwalk hdir dot hread
    obtain ⟨ha, -, -⟩ := resolves_of_walk room hinj hf htree (exec_eq_of_fst hwalk)
    rw [hq] at ha
    cases (htree.tree _).of_resolves (folder_rootEnt _ mode t) ha (folder_eq_some hdir) with
    | @intro _ d hd _ _ =>
      obtain ⟨-, u, hu, hfold⟩ := id hd
      rw [← hu, readDir_folder room w hinj hfold] at hread
      simp only [Except.ok.injEq, List.cons.injEq] at hread
      exact hnot ⟨a, d, ha, hdir, hd, hread.2⟩
  · intro h hempty
    obtain ⟨a, d, ha, hdir, hd, hnil⟩ := hempty
    have hq := elems_clean hpath
    rw [← hq] at ha
    have hwalk := congrArg Prod.fst (exec_walk room w hinj hf ha)
    obtain ⟨-, u, hu, hfold⟩ := id hd
    have hread := congrArg Prod.fst (readDir_folder room w hinj hfold)
    rw [hnil, hu] at hread
    exact h _ a hq hwalk hdir _ hread

/-- `Remove` is exact if the folder that would have the entry is not empty. -/
theorem remove_exact_iff {root : Hash} {p : Bytes} (w : ω)
    (hinj : Set.InjOn sha256 {c | c ∈ (exec (memStore sha256) (remove room root p) w s).2.2})
    (htree : DirTree (Stored sha256 s) (Roomy 0) root) (hp : elems p ≠ []) :
    let after := exec (memStore sha256) (remove room root p) w s
    RemovesExactly (fun q => (exec (memStore sha256) (walk room root q) w s).1) after.1
        (fun r q => (exec (memStore sha256) (walk room r.htree.data q) after.2.1 after.2.2).1) p ↔
      ∀ q a, elems q = (elems p).dropLast → (exec (memStore sha256) (walk room root q) w s).1 = .ok a →
        a.isDir = true → ∀ dot, (exec (memStore sha256) (readDir room a.htree.data) w s).1 ≠ .ok [dot] := by
  intro after
  have hinj₀ : Set.InjOn sha256 {c | c ∈ s} := injOn_of_exec
    (show exec (memStore sha256) (remove room root p) w s = (after.1, after.2.1, after.2.2) from rfl) hinj
  obtain ⟨path, name, hsplit⟩ := (List.eq_nil_or_concat' (elems p)).resolve_left hp
  have hthere := htree
  cases hthere with
  | @intro t mode ents hf _ _ =>
    have htree' := htree.tree (functional_stored hinj₀)
    have hpath := proper_above hsplit
    rw [hsplit, List.dropLast_concat, ← not_leadsToEmpty_iff room w hinj₀ hf htree hpath]
    obtain ⟨x, hx⟩ := htree'.resolves (folder_rootEnt _ mode t) (elems p)
    have hwalk := congrArg Prod.fst (exec_walk room w hinj₀ hf hx)
    cases x with
    | ok e =>
      rw [hsplit] at hx
      obtain ⟨b, u, d, c, hb, hu, hd, hc, -⟩ := hx.of_append
      have hway : Way (links (functional_stored hinj₀)) (fun _ d => Roomy 0 d.ents)
          (fun _ d => Roomy 0 d.ents ∧ ∃ e, findEnt d.ents name = some e) path t := by
        apply way_of_tree (folder_rootEnt _ mode t) htree' hb hu
        intro d' hd' hroom
        rw [(links _).unique _ _ _ hd' hd] at hroom ⊢
        exact ⟨hroom, c, hc⟩
      obtain ⟨r, w', s', hrun, -⟩ := remove_performs room hsplit t w s hinj₀ hway
      have hafter : after = (.ok r, w', s') := hrun
      have hnonempty : ¬ LeadsToEmpty (functional_stored hinj₀) (rootEnt mode t) path := by
        intro hempty
        obtain ⟨a, d', ha, hdir, hd', hnil⟩ := hempty
        obtain rfl : b = a := by simpa using hb.unique ha
        obtain ⟨-, rfl⟩ := isDir_of_folder hu
        rw [(links _).unique _ _ _ hd hd'] at hc
        simp [links, hnil, findEnt] at hc
      simp only [hnonempty, not_false_eq_true, iff_true, hafter]
      rw [hrun] at hinj
      obtain ⟨hgone, hothers, habove⟩ := remove_local room hinj htree hrun
      refine ⟨?_, ?_, ?_, ?_, by simp⟩
      · exact ⟨fun _ => ⟨e, hwalk⟩, fun _ => ⟨r, rfl⟩⟩
      · intro r' hr' q
        cases hr'
        exact hgone q
      · intro r' hr' q
        cases hr'
        exact hothers q
      · intro r' hr' q hq hne
        cases hr'
        obtain ⟨a, u', ha, ha'⟩ := habove q hq hne
        exact ⟨a, _, ha, ha', rfl, rfl, rfl, rfl⟩
    | error failure =>
      cases hcons : elems p with
      | nil => exact absurd hcons hp
      | cons elem rest =>
        rw [hcons] at hx hsplit
        obtain ⟨err, hrun, hpanic⟩ := removeAt_missing room w hinj₀ hsplit hpath (isDir_rootEnt mode t) hx
        have hafter : after = (.error err, w, s) := by
          rw [← hrun]
          exact congrArg (fun x => exec (memStore sha256) x w s) (remove_eq room hcons t.data)
        rw [← hpanic, hafter]
        constructor
        · intro hexact hmsg
          obtain ⟨msg, rfl⟩ := hmsg
          exact hexact.noPanic msg rfl
        · intro hnot
          refine ⟨⟨by simp, ?_⟩, by simp, by simp, by simp, ?_⟩
          · intro he
            obtain ⟨e, he⟩ := he
            rw [hwalk] at he
            cases failure <;> cases he
          · intro msg hmsg
            rw [Except.error.injEq] at hmsg
            exact hnot ⟨msg, hmsg⟩

/-- A root with one file. -/
def fileA : DirEnt := file (ascii "a")

theorem folder_fileA : Folder (Stored sumHash [dirChunk 0 [fileA]]) ⟨0, sumHash (dirChunk 0 [fileA])⟩ 0 [fileA] :=
  folder_dirChunk mem_cons_self (by decide)

theorem dirTree_fileA : DirTree (Stored sumHash [dirChunk 0 [fileA]]) (Roomy 0) (sumHash (dirChunk 0 [fileA])) := by
  refine .intro folder_fileA ⟨⟨by decide, by decide⟩, by decide⟩ ?_
  intro e he hdir
  obtain rfl := mem_singleton.mp he
  cases hdir

theorem remove_exact_file : ∃ r s',
    exec (memStore sumHash) (remove id (sumHash (dirChunk 0 [fileA])) (ascii "/a")) ()
      [dirChunk 0 [fileA]] = (.ok r, (), s') ∧
    ∀ e, (exec (memStore sumHash) (walk id r.htree.data (ascii "/a/b")) () s').1 ≠ .ok e := by
  have hinj : Set.InjOn sumHash {c | c ∈ [dirChunk 0 [fileA]]} := injOn_of_list (by simp)
  have hempty : ¬ LeadsToEmpty (functional_stored hinj) (rootEnt 0 ⟨0, sumHash (dirChunk 0 [fileA])⟩) [] := by
    intro h
    obtain ⟨a, d, ha, hdir, hd, hnil⟩ := h
    cases ha
    rw [(links _).unique _ _ _ hd (folder_fileA.listing _ rfl)] at hnil
    cases hnil
  have hpath : (elems (ascii "/a")).dropLast = [] := by decide
  have hproper : ∀ n ∈ ([] : List Bytes), Proper n := fun n hn => absurd hn List.not_mem_nil
  have hcondition := (not_leadsToEmpty_iff id () hinj folder_fileA dirTree_fileA hproper).mp hempty
  rw [← hpath] at hcondition
  have hexact := (remove_exact_iff id () (injOn_of_list (by decide +kernel)) dirTree_fileA (by decide)).mpr
    hcondition
  have hthere : (exec (memStore sumHash) (walk id (sumHash (dirChunk 0 [fileA])) (ascii "/a")) ()
      [dirChunk 0 [fileA]]).1 = .ok fileA := by
    decide +kernel
  generalize exec (memStore sumHash) (remove id (sumHash (dirChunk 0 [fileA])) (ascii "/a")) ()
    [dirChunk 0 [fileA]] = after at hexact ⊢
  obtain ⟨res, w, s'⟩ := after
  obtain ⟨r, rfl⟩ := hexact.succeeds.mpr ⟨fileA, hthere⟩
  exact ⟨r, s', rfl, hexact.gone r rfl _ (by decide)⟩

/-- In an empty folder there is nothing to remove. -/
theorem remove_from_empty :
    DirTree (Stored sumHash [dirChunk 0 []]) (Roomy 0) (sumHash (dirChunk 0 [])) ∧
    (exec (memStore sumHash) (remove id (sumHash (dirChunk 0 [])) (ascii "/a")) () [dirChunk 0 []]).1 =
      .error (.panic "makeslice: cap out of range") := by
  constructor
  · exact .intro (t := ⟨0, _⟩) (folder_dirChunk List.mem_cons_self (by decide)) ⟨⟨by simp, by simp⟩, by decide⟩
      (by simp)
  · decide +kernel

end Exact

end Bpy.TreeRemove
