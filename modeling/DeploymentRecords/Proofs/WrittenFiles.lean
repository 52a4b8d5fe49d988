import DeploymentRecords.Files.Tree

/-! # Written files

A file that was read can be written unless its permissions deny that, which no write changes. What was
written to it is what is read there afterwards, no other place of the tree changes, and writing the same
text once more changes nothing. -/

namespace DeploymentRecords.Files

theorem Path.parts_ne_nil (path : Path) : Path.parts path ≠ [] := by
  cases path with
  | nil => exact List.cons_ne_nil _ _
  | cons c path =>
    unfold Path.parts
    split
    · exact List.cons_ne_nil _ _
    · split <;> exact List.cons_ne_nil _ _

theorem Place.parent_eq {place : Place} (h : place.names ≠ []) :
    place.parent = ⟨place.base, place.names.dropLast⟩ := by
  obtain ⟨base, names⟩ := place
  cases names with
  | nil => exact absurd rfl h
  | cons name names => cases base <;> rfl

theorem Place.names_parent (place : Place) : place.parent.names = place.names.dropLast := by
  by_cases h : place.names = []
  · obtain ⟨base, names⟩ := place
    obtain rfl : names = [] := h
    cases base <;> rfl
  · rw [Place.parent_eq h]

namespace Tree

variable {tree new : Tree} {path : Path} {place goal : Place} {part : Text} {parts : List Text}
  {content : ByteArray} {old s : Text}

structure Passable (tree : Tree) (place : Place) (part : Text) : Prop where
  directory : tree.node? place = some .directory
  searched : ¬(part ≠ [] ∧ tree.denies .search place)
  length : ¬maxName < byteLength part
  found : ¬(tree.node? (place.step part)).isNone

theorem follow_cons_eq_ok : tree.follow place (part :: parts) = .ok goal ↔
    tree.Passable place part ∧ tree.follow (place.step part) parts = .ok goal := by
  constructor
  · intro h
    unfold follow at h
    split at h
    · cases h
    · cases h
    · next hdirectory =>
      split at h
      · cases h
      · next hsearched =>
        split at h
        · cases h
        · next hlength =>
          split at h
          · cases h
          · next hfound => exact ⟨⟨hdirectory, hsearched, hlength, hfound⟩, h⟩
  · rintro ⟨hpass, h⟩
    unfold follow
    rw [hpass.directory]
    dsimp only
    rw [if_neg hpass.searched, if_neg hpass.length, if_neg hpass.found, h]

theorem follow_append_eq_ok {front back : List Text} : tree.follow place (front ++ back) = .ok goal ↔
    ∃ middle, tree.follow place front = .ok middle ∧ tree.follow middle back = .ok goal := by
  induction front generalizing place with
  | nil => exact ⟨fun h => ⟨place, rfl, h⟩, fun ⟨_, hplace, h⟩ => Except.ok.inj hplace ▸ h⟩
  | cons part front ih =>
    rw [List.cons_append, follow_cons_eq_ok, ih]
    simp only [follow_cons_eq_ok, and_assoc, exists_and_left]

def Rooted (tree : Tree) (place : Place) : Prop :=
  ∀ names, names <+: place.names → names ≠ place.names → tree.node? ⟨place.base, names⟩ = some .directory

theorem rooted_start (path : Path) : tree.Rooted (Place.start path) :=
  fun _ habove hne => absurd (List.prefix_nil.mp habove) hne

theorem Rooted.parent (h : tree.Rooted place) : tree.Rooted place.parent := by
  intro above habove hne
  by_cases hnames : place.names = []
  · rw [Place.names_parent, hnames] at habove hne
    exact absurd (List.prefix_nil.mp habove) hne
  · rw [Place.parent_eq hnames] at habove hne ⊢
    refine h above (habove.trans (List.dropLast_prefix _)) fun heq => hne ?_
    exact habove.eq_of_length (Nat.le_antisymm habove.length_le (heq ▸ (List.dropLast_prefix _).length_le))

theorem Rooted.node?_parent (h : tree.Rooted place) : tree.node? place.parent = some .directory := by
  by_cases hnames : place.names = []
  · rw [node?, if_pos (by rw [Place.names_parent, hnames]; rfl)]
  · rw [Place.parent_eq hnames]
    refine h _ (List.dropLast_prefix _) fun heq => hnames ?_
    have hlength := congrArg List.length heq
    rw [List.length_dropLast] at hlength
    exact List.eq_nil_of_length_eq_zero (by omega)

theorem Rooted.child (h : tree.Rooted place) (hdirectory : tree.node? place = some .directory)
    (name : Text) : tree.Rooted (place.child name) := by
  intro above habove hne
  rcases List.prefix_concat_iff.mp habove with heq | habove
  · exact absurd heq hne
  · by_cases heq : above = place.names
    · exact heq ▸ hdirectory
    · exact h above habove heq

theorem Rooted.step (h : tree.Rooted place) (hdirectory : tree.node? place = some .directory)
    (part : Text) : tree.Rooted (place.step part) := by
  unfold Place.step
  split
  · exact h
  · split
    · exact h.parent
    · exact h.child hdirectory part

theorem Rooted.follow (h : tree.Rooted place) (hfollow : tree.follow place parts = .ok goal) :
    tree.Rooted goal := by
  induction parts generalizing place with
  | nil => exact Except.ok.inj hfollow ▸ h
  | cons part parts ih =>
    obtain ⟨hpass, hrest⟩ := follow_cons_eq_ok.mp hfollow
    exact ih (h.step hpass.directory part) hrest

/-- A path leads into a directory, where its last part is the name of a file. -/
structure LeadsTo (tree : Tree) (path : Path) (front : List Text) (directory : Place) (name : Text)
    (content : ByteArray) : Prop where
  valid : fault? path = none
  parts : Path.parts path = front ++ [name]
  way : tree.follow (Place.start path) front = .ok directory
  pass : tree.Passable directory name
  named : name ≠ [] ∧ name ≠ ['.'] ∧ name ≠ ['.', '.']
  file : tree.node? (directory.child name) = some (.file content)

namespace LeadsTo

variable {front : List Text} {directory : Place} {name : Text}
  (h : tree.LeadsTo path front directory name content)

include h

theorem step : directory.step name = directory.child name := by
  obtain ⟨hempty, hpoint, hpoints⟩ := h.named
  rw [Place.step, if_neg (not_or.mpr ⟨hempty, hpoint⟩), if_neg hpoints]

theorem locate : tree.locate path = .ok (directory.child name) := by
  rw [Tree.locate, h.valid]
  dsimp only
  rw [h.parts, follow_append_eq_ok]
  exact ⟨directory, h.way, follow_cons_eq_ok.mpr ⟨h.pass, congrArg Except.ok h.step⟩⟩

theorem readBytes : tree.readBytes path =
    if tree.denies .read (directory.child name) then .error .denied else .ok content := by
  rw [Tree.readBytes, h.locate]
  dsimp only
  rw [h.file]

theorem target : tree.target path =
    if tree.denies .write (directory.child name) then .error .denied
    else .ok (directory.child name) := by
  obtain ⟨hempty, hpoint, hpoints⟩ := h.named
  have hsearched : ¬tree.denies .search directory := fun hdenied => h.pass.searched ⟨hempty, hdenied⟩
  have hclosed : ((Path.parts path).reverse.dropWhile (· = [])).reverse = front ++ [name] := by
    rw [h.parts, List.reverse_concat, List.dropWhile_cons_of_neg (by simpa using hempty),
      ← List.reverse_concat, List.reverse_reverse]
  have hname : ¬(front ++ [name] ≠ Path.parts path ∨ name = ['.'] ∨ name = ['.', '.']) :=
    not_or.mpr ⟨fun hne => hne h.parts.symm, not_or.mpr ⟨hpoint, hpoints⟩⟩
  rw [Tree.target, h.valid]
  dsimp only
  rw [hclosed, List.getLast?_concat]
  dsimp only
  rw [List.dropLast_concat, h.way]
  dsimp only
  rw [h.pass.directory]
  dsimp only
  rw [if_neg hsearched, if_neg hname, if_neg h.pass.length, h.file]

end LeadsTo

/-- A path that a file was read from leads to it. -/
theorem leadsTo_of_readBytes (h : tree.readBytes path = .ok content) :
    ∃ front directory name, tree.LeadsTo path front directory name content ∧
      tree.denies .read (directory.child name) = false := by
  unfold readBytes locate at h
  split at h
  · cases h
  · next place hlocate =>
    split at hlocate
    · cases hlocate
    · next hvalid =>
      split at h
      · cases h
      · next hread =>
        split at h
        · next hfile =>
          obtain rfl := Except.ok.inj h
          obtain ⟨front, name, hparts⟩ :=
            (List.eq_nil_or_concat (Path.parts path)).resolve_left (Path.parts_ne_nil path)
          rw [List.concat_eq_append] at hparts
          rw [hparts] at hlocate
          obtain ⟨directory, hway, hlast⟩ := follow_append_eq_ok.mp hlocate
          obtain ⟨hpass, hplace⟩ := follow_cons_eq_ok.mp hlast
          obtain rfl := Except.ok.inj hplace
          -- a file is no directory, so the last part is not one that names where it stands or its parent
          have hnode : ∀ {other}, tree.node? other = some .directory → directory.step name ≠ other := by
            rintro _ hother rfl
            cases hother.symm.trans hfile
          have hnamed : name ≠ [] ∧ name ≠ ['.'] ∧ name ≠ ['.', '.'] := by
            refine ⟨?_, ?_, ?_⟩ <;> rintro rfl
            · exact hnode hpass.directory rfl
            · exact hnode hpass.directory rfl
            · exact hnode ((rooted_start path).follow hway).node?_parent rfl
          have hstep : directory.step name = directory.child name := by
            rw [Place.step, if_neg (not_or.mpr ⟨hnamed.1, hnamed.2.1⟩), if_neg hnamed.2.2]
          rw [hstep] at hfile hread
          exact ⟨front, directory, name, ⟨hvalid, hparts, hway, hpass, hnamed, hfile⟩,
            Bool.eq_false_iff.mpr hread⟩
        · cases h
        · cases h

theorem decode?_encode (s : Text) : decode? (encode s) = some s := by
  have hvalid : (encode s).IsValidUTF8 := (String.ofList s).isValidUTF8
  rw [decode?, String.fromUTF8?, dif_pos hvalid, Option.map_some]
  exact congrArg some String.toList_ofList

theorem read_of_readBytes (h : tree.readBytes path = .ok (encode s)) : tree.read path = .ok s := by
  rw [read, h]
  simp only [decode?_encode]

theorem leadsTo_of_read (h : tree.read path = .ok s) : ∃ content front directory name,
    tree.LeadsTo path front directory name content ∧
      tree.denies .read (directory.child name) = false := by
  rw [read] at h
  split at h
  · cases h
  · next content hcontent => exact ⟨content, leadsTo_of_readBytes hcontent⟩

theorem Passable.set {held : ByteArray} (hfile : tree.node? goal = some (.file held))
    (hnames : goal.names ≠ []) (h : tree.Passable place part) :
    (tree.set goal (.file content)).Passable place part := by
  have hset := fun other => node?_set tree goal other (.file content) hnames
  have hne : place ≠ goal := by
    rintro rfl
    cases h.directory.symm.trans hfile
  refine ⟨?_, h.searched, h.length, ?_⟩
  · rw [hset, if_neg hne, h.directory]
  · rw [hset]
    split
    · exact Bool.false_ne_true
    · exact h.found

theorem follow_set {held : ByteArray} {target : Place} (hfile : tree.node? target = some (.file held))
    (hnames : target.names ≠ []) (h : tree.follow place parts = .ok goal) :
    (tree.set target (.file content)).follow place parts = .ok goal := by
  induction parts generalizing place with
  | nil => exact h
  | cons part parts ih =>
    obtain ⟨hpass, hrest⟩ := follow_cons_eq_ok.mp h
    exact follow_cons_eq_ok.mpr ⟨hpass.set hfile hnames, ih hrest⟩

theorem names_child (place : Place) (name : Text) : (place.child name).names ≠ [] := by
  simp [Place.child]

theorem LeadsTo.set {front : List Text} {directory : Place} {name : Text} {held : ByteArray}
    (h : tree.LeadsTo path front directory name held) :
    (tree.set (directory.child name) (.file content)).LeadsTo path front directory name content where
  valid := h.valid
  parts := h.parts
  way := follow_set h.file (names_child _ _) h.way
  pass := h.pass.set h.file (names_child _ _)
  named := h.named
  file := by rw [node?_set _ _ _ _ (names_child _ _), if_pos rfl]

theorem LeadsTo.write {front : List Text} {directory : Place} {name : Text}
    (h : tree.LeadsTo path front directory name content) (s : Text) : tree.write path s =
      if tree.denies .write (directory.child name) then .error .denied
      else .ok (tree.set (directory.child name) (.file (encode s))) := by
  rw [Tree.write, h.target]
  by_cases hdenied : tree.denies .write (directory.child name)
  · rw [if_pos hdenied, if_pos hdenied]
  · rw [if_neg hdenied, if_neg hdenied]

/-- A file that was read can be written, unless its permissions deny that. -/
theorem write_of_read (hread : tree.read path = .ok old) (s : Text) :
    (∃ new, tree.write path s = .ok new) ∨ tree.write path s = .error .denied := by
  obtain ⟨content, front, directory, name, hleads, -⟩ := leadsTo_of_read hread
  rw [hleads.write]
  split
  · exact Or.inr rfl
  · exact Or.inl ⟨_, rfl⟩

example (content : ByteArray) :
    ((empty.put (Place.ofPath ['f']) (.file content)).deny .write (Place.ofPath ['f'])).write ['f'] s =
      .error .denied := rfl

theorem readBytes_write (hread : tree.read path = .ok old) (h : tree.write path s = .ok new) :
    new.readBytes path = .ok (encode s) ∧ ∃ place, ∀ other, new.node? other =
      if other = place then some (.file (encode s)) else tree.node? other := by
  obtain ⟨content, front, directory, name, hleads, hallowed⟩ := leadsTo_of_read hread
  rw [hleads.write] at h
  split at h
  · cases h
  · obtain rfl := Except.ok.inj h
    refine ⟨?_, directory.child name, fun other => node?_set _ _ _ _ (names_child _ _)⟩
    rw [hleads.set.readBytes, denies_set, hallowed]
    rfl

theorem read_write (hread : tree.read path = .ok old) (h : tree.write path s = .ok new) :
    new.read path = .ok s :=
  read_of_readBytes (readBytes_write hread h).1

/-- Where a text was written another one can be, and the same one changes nothing. -/
theorem write_again (hread : tree.read path = .ok old) (h : tree.write path s = .ok new) (t : Text) :
    ∃ newer, new.write path t = .ok newer ∧ (t = s → newer = new) := by
  obtain ⟨content, front, directory, name, hleads, -⟩ := leadsTo_of_read hread
  rw [hleads.write] at h
  split at h
  · cases h
  · next hallowed =>
    obtain rfl := Except.ok.inj h
    refine ⟨_, by rw [hleads.set.write, denies_set, if_neg hallowed], ?_⟩
    rintro rfl
    simp [set, List.filter_append]

end Tree

end DeploymentRecords.Files
