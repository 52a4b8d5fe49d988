import DeploymentRecords.Audit
import DeploymentRecords.Proofs.WrittenFiles
import Mathlib.Data.List.Induction

/-! # Loading the records of a plan

A load reads the deployment file, each source file once and the documentation, in this order. It
succeeds if all of them can be read and the deployment file opens; otherwise the first that fails is
named. After a load every group finds the text of its source file, however its path is spelt. -/

namespace DeploymentRecords

open Files Toml

namespace Files.Path

theorem same_symm {a b : Path} (h : same a b = true) : same b a = true :=
  same_iff.mpr (same_iff.mp h).symm

theorem same_trans {a b c : Path} (h : same a b = true) (h' : same b c = true) : same a c = true :=
  same_iff.mpr ((same_iff.mp h).trans (same_iff.mp h'))

end Files.Path

/-- The number of the first of the paths that has the components of this one. -/
def firstUse (paths : List Path) (path : Path) : Nat := paths.findIdx fun other => Path.same other path

structure Lists (paths listed : List Path) : Prop where
  covers : ∀ path ∈ paths, ∃ other ∈ listed, Path.same path other = true
  first : ∀ path ∈ listed, paths[firstUse paths path]? = some path
  ordered : listed.Pairwise fun a b => firstUse paths a < firstUse paths b
  distinct : listed.Pairwise fun a b => ¬ Path.same a b = true

namespace Lists

variable {paths listed : List Path} {path : Path}

theorem nil : Lists [] [] := ⟨by simp, by simp, List.Pairwise.nil, List.Pairwise.nil⟩

theorem firstUse_lt (h : Lists paths listed) (hpath : path ∈ listed) : firstUse paths path < paths.length :=
  (List.getElem?_eq_some_iff.mp (h.first path hpath)).1

/-- What comes later does not change a first use. -/
theorem firstUse_concat (h : Lists paths listed) (hpath : path ∈ listed) (next : Path) :
    firstUse (paths ++ [next]) path = firstUse paths path := by
  unfold firstUse
  rw [List.findIdx_append]
  exact if_pos (h.firstUse_lt hpath)

theorem first_concat (h : Lists paths listed) (next : Path) :
    ∀ path ∈ listed, (paths ++ [next])[firstUse (paths ++ [next]) path]? = some path := by
  intro path hpath
  rw [h.firstUse_concat hpath, List.getElem?_append_left (h.firstUse_lt hpath)]
  exact h.first path hpath

theorem ordered_concat (h : Lists paths listed) (next : Path) :
    listed.Pairwise fun a b => firstUse (paths ++ [next]) a < firstUse (paths ++ [next]) b := by
  refine List.Pairwise.imp_of_mem (fun ha hb hlt => ?_) h.ordered
  rw [h.firstUse_concat ha, h.firstUse_concat hb]
  exact hlt

theorem skip (h : Lists paths listed) (hany : listed.any (Path.same path) = true) :
    Lists (paths ++ [path]) listed where
  covers := by
    intro other hother
    rcases List.mem_append.mp hother with hother | hother
    · exact h.covers other hother
    · obtain ⟨represent, hmem, hsame⟩ := List.any_eq_true.mp hany
      exact ⟨represent, hmem, List.mem_singleton.mp hother ▸ hsame⟩
  first := h.first_concat path
  ordered := h.ordered_concat path
  distinct := h.distinct

/-- A path with new components comes behind all others. -/
theorem firstUse_new (h : Lists paths listed) (hnone : listed.any (Path.same path) = false) :
    firstUse (paths ++ [path]) path = paths.length := by
  have hnew : ∀ other ∈ paths, Path.same other path = false := by
    intro other hother
    obtain ⟨represent, hmem, hsame⟩ := h.covers other hother
    refine Bool.eq_false_iff.mpr fun hpath => ?_
    have hboth := Path.same_trans (Path.same_symm hpath) hsame
    exact absurd hboth (List.any_eq_false.mp hnone represent hmem)
  have hlength : firstUse paths path = paths.length := List.findIdx_eq_length_of_false hnew
  unfold firstUse at hlength ⊢
  rw [List.findIdx_append, if_neg (by omega)]
  simp [List.findIdx_cons, Path.same]

theorem add (h : Lists paths listed) (hnone : listed.any (Path.same path) = false) :
    Lists (paths ++ [path]) (listed ++ [path]) where
  covers := by
    intro other hother
    rcases List.mem_append.mp hother with hother | hother
    · obtain ⟨represent, hmem, hsame⟩ := h.covers other hother
      exact ⟨represent, List.mem_append_left _ hmem, hsame⟩
    · exact ⟨path, by simp, List.mem_singleton.mp hother ▸ by simp [Path.same]⟩
  first := by
    intro other hother
    rcases List.mem_append.mp hother with hother | hother
    · exact h.first_concat path other hother
    · rw [List.mem_singleton.mp hother, h.firstUse_new hnone]
      simp
  ordered := by
    refine List.pairwise_append.mpr ⟨h.ordered_concat path, List.pairwise_singleton _ _, ?_⟩
    intro a ha b hb
    rw [List.mem_singleton.mp hb, h.firstUse_new hnone, h.firstUse_concat ha]
    exact h.firstUse_lt ha
  distinct := by
    refine List.pairwise_append.mpr ⟨h.distinct, List.pairwise_singleton _ _, ?_⟩
    intro a ha b hb hsame
    rw [List.mem_singleton.mp hb] at hsame
    exact absurd (Path.same_symm hsame) (List.any_eq_false.mp hnone a ha)

end Lists

theorem Plan.sources_lists (plan : Plan) : Lists (plan.groups.map Group.source) plan.sources := by
  unfold Plan.sources
  induction plan.groups using List.reverseRecOn with
  | nil => exact Lists.nil
  | append_singleton groups group ih =>
    rw [List.foldl_append, List.map_append]
    simp only [List.foldl_cons, List.foldl_nil, List.map_cons, List.map_nil]
    split
    · next hany => exact ih.skip hany
    · next hnone => exact ih.add (Bool.eq_false_iff.mpr hnone)

example : (⟨[], [], ["a//b", "c", "a/./b"].map fun source => ⟨[], source.toList, [], []⟩⟩ : Plan).sources =
    ["a//b".toList, "c".toList] := by decide

namespace Toml.Value

/-- A value of which every box, that is every table whose first key is that of a boxed date-time, holds a
date-time as a string. -/
inductive Openable : Value → Prop
  | scalar (s : Scalar) : Openable (.scalar s)
  | array {elements : List Value} (h : ∀ v ∈ elements, Openable v) : Openable (.array elements)
  | box {entries : List (Text × Value)} {s : Text} {d : Datetime} (hbox : boxed? entries = some (.string s))
      (hdate : Datetime.ofText? s = some d) : Openable (.table entries)
  | table {entries : List (Text × Value)} (hbox : boxed? entries = none)
      (h : ∀ entry ∈ entries, Openable entry.2) : Openable (.table entries)

mutual

theorem isSome_unboxed? (v : Value) : (unboxed? v).isSome = true ↔ Openable v := by
  cases v with
  | scalar s => exact ⟨fun _ => .scalar s, fun _ => rfl⟩
  | array elements =>
    rw [unboxed?, Option.isSome_map, isSome_unboxedAll? elements]
    exact ⟨.array, fun h => by cases h with | array h => exact h⟩
  | table entries =>
    have hentries := isSome_unboxedEntries? entries
    rw [unboxed?]
    split
    · next s hbox =>
      rw [Option.isSome_map, Option.isSome_iff_exists]
      refine ⟨fun ⟨d, hdate⟩ => .box hbox hdate, fun h => ?_⟩
      cases h with
      | box hbox' hdate =>
        obtain rfl : s = _ := by simpa [string] using hbox.symm.trans hbox'
        exact ⟨_, hdate⟩
      | table hbox' => cases hbox'.symm.trans hbox
    · next hno hbox =>
      refine iff_of_false (by simp) fun h => ?_
      cases h with
      | box hbox' => exact hno _ (Option.some.inj (hbox.symm.trans hbox'))
      | table hbox' => cases hbox'.symm.trans hbox
    · next hbox =>
      rw [Option.isSome_map, hentries]
      refine ⟨.table hbox, fun h => ?_⟩
      cases h with
      | box hbox' => cases hbox'.symm.trans hbox
      | table _ h => exact h

theorem isSome_unboxedAll? : (vs : List Value) → ((unboxedAll? vs).isSome = true ↔ ∀ v ∈ vs, Openable v)
  | [] => by simp [unboxedAll?]
  | v :: vs => by
    rw [List.forall_mem_cons, ← isSome_unboxed? v, ← isSome_unboxedAll? vs, unboxedAll?]
    cases unboxed? v <;> cases unboxedAll? vs <;> simp

theorem isSome_unboxedEntries? : (entries : List (Text × Value)) →
    ((unboxedEntries? entries).isSome = true ↔ ∀ entry ∈ entries, Openable entry.2)
  | [] => by simp [unboxedEntries?]
  | (key, v) :: entries => by
    rw [List.forall_mem_cons, ← isSome_unboxed? v, ← isSome_unboxedEntries? entries, unboxedEntries?]
    cases unboxed? v <;> cases unboxedEntries? entries <;> simp

end

end Toml.Value

/-- A text that is TOML and whose tables open. -/
def OpensAsDeployments (s : Text) : Prop :=
  ∃ doc, Document.read? s = some doc ∧ ∀ entry ∈ doc.entries, entry.2.Openable

theorem isSome_deploymentsOf? (s : Text) :
    (Records.deploymentsOf? s).isSome = true ↔ OpensAsDeployments s := by
  rw [Records.deploymentsOf?, OpensAsDeployments]
  cases Document.read? s with
  | none => simp
  | some doc => simp [Value.isSome_unboxedEntries?]

def Readable (tree : Tree) (path : Path) : Prop := ∃ s, tree.read path = .ok s

namespace Records

variable {tree : Tree} {root : Path} {plan : Plan} {paths : List Path}

theorem readFile_eq_ok {path : Path} {s : Text} : readFile tree path = .ok s ↔ tree.read path = .ok s := by
  unfold readFile
  cases tree.read path <;> simp

theorem readFile_eq_error {path : Path} {fault : Fault} (h : tree.read path = .error fault) :
    readFile tree path = .error (.read path fault) := by
  rw [readFile, h]

def readSources (tree : Tree) (root : Path) (paths : List Path) : Except Failure (List (Path × Text)) :=
  paths.mapM fun path => do return (path, ← readFile tree (Path.join root path))

theorem readSources_cons (path : Path) (paths : List Path) : readSources tree root (path :: paths) =
    match readFile tree (Path.join root path) with
    | .error failure => .error failure
    | .ok s => (readSources tree root paths).map fun sources => (path, s) :: sources := by
  rw [readSources, List.mapM_cons, readSources]
  cases readFile tree (Path.join root path) with
  | error failure => rfl
  | ok s => cases paths.mapM fun path => do return (path, ← readFile tree (Path.join root path)) <;> rfl

theorem readSources_of_eq_ok {sources : List (Path × Text)} (h : readSources tree root paths = .ok sources) :
    sources.map Prod.fst = paths ∧ ∀ p ∈ sources, tree.read (Path.join root p.1) = .ok p.2 := by
  induction paths generalizing sources with
  | nil =>
    cases h
    exact ⟨rfl, by simp⟩
  | cons path paths ih =>
    rw [readSources_cons] at h
    split at h
    · cases h
    · next s hread =>
      cases hrest : readSources tree root paths with
      | error failure =>
        rw [hrest] at h
        cases h
      | ok rest =>
        rw [hrest] at h
        cases h
        obtain ⟨hpaths, hall⟩ := ih hrest
        refine ⟨by rw [List.map_cons, hpaths], ?_⟩
        exact List.forall_mem_cons.mpr ⟨readFile_eq_ok.mp hread, hall⟩

theorem exists_readSources (h : ∀ path ∈ paths, Readable tree (Path.join root path)) :
    ∃ sources, readSources tree root paths = .ok sources := by
  induction paths with
  | nil => exact ⟨[], rfl⟩
  | cons path paths ih =>
    rw [List.forall_mem_cons] at h
    obtain ⟨s, hread⟩ := h.1
    obtain ⟨sources, hsources⟩ := ih h.2
    exact ⟨(path, s) :: sources, by rw [readSources_cons, readFile_eq_ok.mpr hread, hsources]; rfl⟩

theorem readSources_eq_error {before after : List Path} {path : Path} {fault : Fault}
    (hbefore : ∀ path ∈ before, Readable tree (Path.join root path))
    (h : tree.read (Path.join root path) = .error fault) :
    readSources tree root (before ++ path :: after) = .error (.read (Path.join root path) fault) := by
  induction before with
  | nil => rw [List.nil_append, readSources_cons, readFile_eq_error h]
  | cons first before ih =>
    rw [List.forall_mem_cons] at hbefore
    obtain ⟨s, hread⟩ := hbefore.1
    rw [List.cons_append, readSources_cons, readFile_eq_ok.mpr hread, ih hbefore.2]
    rfl

theorem readable_or_first (tree : Tree) (root : Path) (paths : List Path) :
    (∀ path ∈ paths, Readable tree (Path.join root path)) ∨
      ∃ before path after fault, paths = before ++ path :: after ∧
        (∀ path ∈ before, Readable tree (Path.join root path)) ∧
        tree.read (Path.join root path) = .error fault := by
  induction paths with
  | nil => exact Or.inl (by simp)
  | cons path paths ih =>
    cases hread : tree.read (Path.join root path) with
    | error fault => exact Or.inr ⟨[], path, paths, fault, rfl, by simp, hread⟩
    | ok s =>
      rcases ih with hall | ⟨before, other, after, fault, rfl, hbefore, hother⟩
      · exact Or.inl (List.forall_mem_cons.mpr ⟨⟨s, hread⟩, hall⟩)
      · exact Or.inr ⟨path :: before, other, after, fault, rfl,
          List.forall_mem_cons.mpr ⟨⟨s, hread⟩, hbefore⟩, hother⟩

end Records

section

variable (tree : Tree) (root : Path) (plan : Plan)

def OpensDeployments : Prop :=
  ∃ s, tree.read (Path.join root plan.deployments) = .ok s ∧ OpensAsDeployments s

structure Loadable : Prop where
  deployments : OpensDeployments tree root plan
  sources : ∀ path ∈ plan.sources, Readable tree (Path.join root path)
  documentation : Readable tree (Path.join root plan.documentation)

/-- The failure on the first file that is not as it should be: the deployment file, then the source files as
they are listed, then the documentation. -/
inductive FirstFailure : Failure → Prop
  | unread {fault : Fault} (h : tree.read (Path.join root plan.deployments) = .error fault) :
      FirstFailure (.read (Path.join root plan.deployments) fault)
  | unopened {s : Text} (h : tree.read (Path.join root plan.deployments) = .ok s)
      (hs : ¬ OpensAsDeployments s) : FirstFailure (.deployments (Path.join root plan.deployments))
  | source {before after : List Path} {path : Path} {fault : Fault} (hopens : OpensDeployments tree root plan)
      (hsplit : plan.sources = before ++ path :: after)
      (hbefore : ∀ path ∈ before, Readable tree (Path.join root path))
      (h : tree.read (Path.join root path) = .error fault) :
      FirstFailure (.read (Path.join root path) fault)
  | documentation {fault : Fault} (hopens : OpensDeployments tree root plan)
      (hsources : ∀ path ∈ plan.sources, Readable tree (Path.join root path))
      (h : tree.read (Path.join root plan.documentation) = .error fault) :
      FirstFailure (.read (Path.join root plan.documentation) fault)

end

namespace Records

variable {tree : Tree} {root : Path} {plan : Plan} {records : Records} {failure : Failure}

theorem load_eq (tree : Tree) (root : Path) (plan : Plan) : load tree root plan =
    match readFile tree (Path.join root plan.deployments) with
    | .error failure => .error failure
    | .ok s =>
      match deploymentsOf? s with
      | none => .error (.deployments (Path.join root plan.deployments))
      | some deployments =>
        match readSources tree root plan.sources with
        | .error failure => .error failure
        | .ok sources => (readFile tree (Path.join root plan.documentation)).map
            fun documentation => ⟨deployments, sources, documentation⟩ := by
  rw [load]
  dsimp only
  cases readFile tree (Path.join root plan.deployments) with
  | error failure => rfl
  | ok s =>
    cases hopens : deploymentsOf? s with
    | none => simp [hopens, bind, Except.bind]
    | some deployments =>
      rw [readSources]
      simp only [bind, Except.bind, hopens]
      split
      · next hsources => rw [hsources]
      · next hsources =>
        rw [hsources]
        cases readFile tree (Path.join root plan.documentation) <;> rfl

theorem exists_deployments (h : OpensDeployments tree root plan) :
    ∃ s deployments, readFile tree (Path.join root plan.deployments) = .ok s ∧
      deploymentsOf? s = some deployments := by
  obtain ⟨s, hread, hopens⟩ := h
  obtain ⟨deployments, hdeployments⟩ := Option.isSome_iff_exists.mp ((isSome_deploymentsOf? s).mpr hopens)
  exact ⟨s, deployments, readFile_eq_ok.mpr hread, hdeployments⟩

theorem exists_load (h : Loadable tree root plan) : ∃ records, load tree root plan = .ok records := by
  obtain ⟨s, deployments, hread, hdeployments⟩ := exists_deployments h.deployments
  obtain ⟨sources, hsources⟩ := exists_readSources h.sources
  obtain ⟨documentation, hdocumentation⟩ := h.documentation
  refine ⟨⟨deployments, sources, documentation⟩, ?_⟩
  rw [load_eq, hread]
  simp only [hdeployments, hsources, readFile_eq_ok.mpr hdocumentation]
  rfl

theorem load_eq_error (h : FirstFailure tree root plan failure) : load tree root plan = .error failure := by
  rw [load_eq]
  cases h with
  | unread h => rw [readFile_eq_error h]
  | unopened h hs =>
    rw [readFile_eq_ok.mpr h]
    rw [← isSome_deploymentsOf?, Option.not_isSome_iff_eq_none] at hs
    simp only [hs]
  | source hopens hsplit hbefore h =>
    obtain ⟨s, deployments, hread, hdeployments⟩ := exists_deployments hopens
    rw [hread]
    simp only [hdeployments, hsplit, readSources_eq_error hbefore h]
  | documentation hopens hsources h =>
    obtain ⟨s, deployments, hread, hdeployments⟩ := exists_deployments hopens
    obtain ⟨sources, hsources⟩ := exists_readSources hsources
    rw [hread]
    simp only [hdeployments, hsources, readFile_eq_error h]
    rfl

theorem loadable_or_firstFailure (tree : Tree) (root : Path) (plan : Plan) :
    Loadable tree root plan ∨ ∃ failure, FirstFailure tree root plan failure := by
  cases hread : tree.read (Path.join root plan.deployments) with
  | error fault => exact Or.inr ⟨_, .unread hread⟩
  | ok s =>
    by_cases hs : OpensAsDeployments s
    · have hopens : OpensDeployments tree root plan := ⟨s, hread, hs⟩
      rcases readable_or_first tree root plan.sources with
        hsources | ⟨before, path, after, fault, hsplit, hbefore, hfault⟩
      · cases hdocumentation : tree.read (Path.join root plan.documentation) with
        | error fault => exact Or.inr ⟨_, .documentation hopens hsources hdocumentation⟩
        | ok documentation => exact Or.inl ⟨hopens, hsources, documentation, hdocumentation⟩
      · exact Or.inr ⟨_, .source hopens hsplit hbefore hfault⟩
    · exact Or.inr ⟨_, .unopened hread hs⟩

structure Loaded (tree : Tree) (root : Path) (plan : Plan) (records : Records) : Prop where
  deployments : ∃ s, tree.read (Path.join root plan.deployments) = .ok s ∧
    deploymentsOf? s = some records.deployments
  paths : records.sources.map Prod.fst = plan.sources
  sources : ∀ p ∈ records.sources, tree.read (Path.join root p.1) = .ok p.2
  documentation : tree.read (Path.join root plan.documentation) = .ok records.documentation

theorem loaded_of_load (h : load tree root plan = .ok records) : Loaded tree root plan records := by
  rw [load_eq] at h
  split at h
  · cases h
  next s hread =>
  split at h
  · cases h
  next deployments hdeployments =>
  split at h
  · cases h
  next sources hsources =>
  obtain ⟨hpaths, hall⟩ := readSources_of_eq_ok hsources
  cases hdocumentation : readFile tree (Path.join root plan.documentation) with
  | error failure =>
    rw [hdocumentation] at h
    cases h
  | ok documentation =>
    rw [hdocumentation] at h
    cases h
    exact ⟨⟨s, readFile_eq_ok.mp hread, hdeployments⟩, hpaths, hall, readFile_eq_ok.mp hdocumentation⟩

/-- A group finds the text of its source file under the path that is listed for it. -/
theorem Loaded.find?_source (h : Loaded tree root plan records) {group : Group} (hgroup : group ∈ plan.groups) :
    ∃ path ∈ plan.sources, ∃ s, Path.same group.source path = true ∧
      records.sources.find? (fun (p, _) => Path.same group.source p) = some (path, s) ∧
      tree.read (Path.join root path) = .ok s := by
  obtain ⟨listed, hlisted, hsame⟩ := plan.sources_lists.covers _ (List.mem_map_of_mem hgroup)
  rw [← h.paths] at hlisted
  obtain ⟨entry, hentry, rfl⟩ := List.mem_map.mp hlisted
  have hsome : (records.sources.find? fun p => Path.same group.source p.1).isSome = true :=
    List.find?_isSome.mpr ⟨entry, hentry, hsame⟩
  obtain ⟨found, hfound⟩ := Option.isSome_iff_exists.mp hsome
  have hmem := List.mem_of_find?_eq_some hfound
  have hfits := List.find?_some hfound
  refine ⟨found.1, ?_, found.2, hfits, hfound, h.sources found hmem⟩
  rw [← h.paths]
  exact List.mem_map_of_mem hmem

end Records

/-- The source files of a plan are listed once each, as they are first spelt and in the order of first uses.
A load succeeds exactly if the deployment file opens and the listed files and the documentation can be read;
otherwise the failure is that of the first file in this order, and there is no report. After a load every
group is checked against the text of its source file, under whatever spelling it is listed. -/
theorem load_complete (tree : Tree) (root : Path) (plan : Plan) :
    Lists (plan.groups.map Group.source) plan.sources ∧
    ((∃ records, Records.load tree root plan = .ok records) ↔ Loadable tree root plan) ∧
    (∀ failure, Records.load tree root plan = .error failure ↔ FirstFailure tree root plan failure) ∧
    (∀ failure, FirstFailure tree root plan failure → plan.auditFiles tree root = .error failure) ∧
    ∀ records, Records.load tree root plan = .ok records →
      plan.auditFiles tree root = .ok (plan.audit records) ∧ Records.Loaded tree root plan records ∧
      ∀ group ∈ plan.groups, ∃ path ∈ plan.sources, ∃ s, Path.same group.source path = true ∧
        records.sources.find? (fun (p, _) => Path.same group.source p) = some (path, s) ∧
        tree.read (Path.join root path) = .ok s ∧ records.source group.source = s := by
  refine ⟨plan.sources_lists, ⟨?_, Records.exists_load⟩, fun failure => ⟨?_, Records.load_eq_error⟩,
    fun failure h => ?_, fun records h => ?_⟩
  · rintro ⟨records, hload⟩
    rcases Records.loadable_or_firstFailure tree root plan with hloadable | ⟨failure, hfailure⟩
    · exact hloadable
    · cases hload.symm.trans (Records.load_eq_error hfailure)
  · intro hload
    rcases Records.loadable_or_firstFailure tree root plan with hloadable | ⟨first, hfirst⟩
    · obtain ⟨records, hrecords⟩ := Records.exists_load hloadable
      cases hload.symm.trans hrecords
    · cases hload.symm.trans (Records.load_eq_error hfirst)
      exact hfirst
  · rw [Plan.auditFiles, Records.load_eq_error h]
    rfl
  · have hloaded := Records.loaded_of_load h
    refine ⟨by rw [Plan.auditFiles, h]; rfl, hloaded, fun group hgroup => ?_⟩
    obtain ⟨path, hpath, s, hsame, hfind, hread⟩ := hloaded.find?_source hgroup
    exact ⟨path, hpath, s, hsame, hfind, hread, by rw [Records.source, hfind]; rfl⟩

def boxedDeployments : Text := "[deployment.n]\nx = \x7b \"$__toml_private_datetime\" = \"soon\" \x7d\n".toList

def boxedPlan : Plan where
  deployments := "d.toml".toList
  documentation := "d.md".toList
  groups := [⟨"zkc".toList, "s.rs".toList, [⟨"n".toList, "n".toList, none⟩],
    [⟨"zkc".toList, "zkc_address".toList⟩]⟩]

def boxedTree : Tree where
  nodes := [(⟨.working 0, ["d.toml".toList]⟩, .file (Tree.encode boxedDeployments)),
    (⟨.working 0, ["s.rs".toList]⟩, .file (Tree.encode [])),
    (⟨.working 0, ["d.md".toList]⟩, .file (Tree.encode []))]

/-- A file that is TOML is refused if a table in it has the first key of a boxed date-time and no date-time
under it. -/
theorem boxed_file_refused :
    boxedTree.read "./d.toml".toList = .ok boxedDeployments ∧
    (Document.read? boxedDeployments).isSome = true ∧
    (∀ path ∈ boxedPlan.sources, Readable boxedTree (Path.join ".".toList path)) ∧
    Readable boxedTree (Path.join ".".toList boxedPlan.documentation) ∧
    Records.load boxedTree ".".toList boxedPlan = .error (.deployments "./d.toml".toList) ∧
    boxedPlan.auditFiles boxedTree ".".toList = .error (.deployments "./d.toml".toList) := by
  have hdeployments : boxedTree.read "./d.toml".toList = .ok boxedDeployments :=
    Tree.read_of_readBytes (by rfl)
  have hsource : boxedTree.read "./s.rs".toList = .ok [] := Tree.read_of_readBytes (by rfl)
  have hdocumentation : boxedTree.read "./d.md".toList = .ok [] := Tree.read_of_readBytes (by rfl)
  have hunopened : ¬ OpensAsDeployments boxedDeployments := by
    rw [← isSome_deploymentsOf?]
    decide +kernel
  have hfails : FirstFailure boxedTree ".".toList boxedPlan (.deployments "./d.toml".toList) :=
    .unopened hdeployments hunopened
  have hload := Records.load_eq_error hfails
  refine ⟨hdeployments, by decide +kernel, ?_, ⟨[], hdocumentation⟩, hload, ?_⟩
  · intro path hpath
    have hlisted : boxedPlan.sources = ["s.rs".toList] := by decide
    rw [hlisted, List.mem_singleton] at hpath
    rw [hpath]
    exact ⟨[], hsource⟩
  · rw [Plan.auditFiles, hload]
    rfl

end DeploymentRecords
