import DeploymentRecords.Proofs.SoundTree
import DeploymentRecords.Toml.Edit

/-! # Edited trees

Writing strings into a table leaves the tree of a document regular and sound. -/

namespace DeploymentRecords.Toml

namespace Expr

variable {depth budget : Nat} {entries : List (Key × Expr)} {fields : List (Text × Text)}

theorem sound_string (s : Text) (around : Option Surround) : (string s around).Sound depth budget := by
  rw [string, Sound]
  exact Or.inl ⟨s, rfl, spells_quote s⟩

theorem around_string (s : Text) (around : Option Surround) : (string s around).around = around := rfl

structure EntriesKept (depth budget : Nat) (entries : List (Key × Expr)) : Prop where
  nodup : (names entries).Nodup
  sound : EntriesSound depth budget entries

theorem EntriesKept.replace (h : EntriesKept depth budget entries) {name : Text}
    (change : Expr → Expr) (hchange : ∀ p ∈ entries, p.1.name = name → (change p.2).Sound depth budget ∧
      (change p.2).around = p.2.around) :
    EntriesKept depth budget
      (entries.map fun (key, old) => if key.name = name then (key, change old) else (key, old)) := by
  refine ⟨by rw [names_map fun p => by dsimp only; split <;> rfl]; exact h.nodup, ?_⟩
  have hold := entriesSound_iff.mp h.sound
  rw [entriesSound_iff]
  intro p hp
  obtain ⟨⟨key, old⟩, hmem, rfl⟩ := List.mem_map.mp hp
  obtain ⟨hkey, houter, haround, hsound⟩ := hold _ hmem
  by_cases hname : key.name = name
  · obtain ⟨hnew, hsame⟩ := hchange _ hmem hname
    simp only [hname, if_true]
    exact ⟨hkey, houter, hsame ▸ haround, hnew⟩
  · simp only [hname, if_false]
    exact ⟨hkey, houter, haround, hsound⟩

theorem EntriesKept.set (h : EntriesKept depth budget entries) (name s : Text) :
    EntriesKept depth budget (Expr.set entries name s) ∧ Expr.set entries name s ≠ [] := by
  unfold Expr.set
  split
  · next hany =>
    refine ⟨h.replace (fun old => string s old.around)
      fun p _ _ => ⟨sound_string s _, around_string s _⟩, ?_⟩
    obtain ⟨p, hp, -⟩ := mem_names.mp (any_name.mp hany)
    rw [ne_eq, List.map_eq_nil_iff]
    exact List.ne_nil_of_mem hp
  · next hany =>
    rw [any_name] at hany
    refine ⟨⟨nodup_names_append h.nodup hany, ?_⟩, by simp⟩
    rw [entriesSound_iff, List.forall_mem_append, List.forall_mem_singleton]
    exact ⟨entriesSound_iff.mp h.sound, Key.sound_new name, by simp [Around, Key.new],
      by simp [Around, around_string], sound_string s none⟩

theorem EntriesKept.setAll (h : EntriesKept depth budget entries) (fields : List (Text × Text)) :
    EntriesKept depth budget (fields.foldl (fun entries (name, s) => Expr.set entries name s) entries) ∧
      (entries ≠ [] → fields.foldl (fun entries (name, s) => Expr.set entries name s) entries ≠ []) := by
  induction fields generalizing entries with
  | nil => exact ⟨h, id⟩
  | cons field fields ih =>
    obtain ⟨hkept, hne⟩ := h.set field.1 field.2
    obtain ⟨hall, hrest⟩ := ih hkept
    exact ⟨hall, fun _ => hrest hne⟩

/-- An entry that is found can be changed under its key. -/
theorem EntriesKept.replace_found (h : EntriesKept depth budget entries) {name : Text} {key : Key}
    {old sub : Expr} (hfind : entries.find? (fun p => p.1.name = name) = some (key, old))
    (hsub : old.Sound depth budget → sub.Sound depth budget ∧ sub.around = old.around) :
    EntriesKept depth budget
      (entries.map fun (key, old) => if key.name = name then (key, sub) else (key, old)) := by
  have hmem := List.mem_of_find?_eq_some hfind
  have hname : key.name = name := by simpa using List.find?_some hfind
  refine h.replace (fun _ => sub) fun p hp hpname => ?_
  obtain rfl : p = (key, old) := eq_of_name_eq h.nodup hp hmem (hpname.trans hname.symm)
  exact hsub ((entriesSound_iff.mp h.sound) _ hmem).2.2.2

theorem update?_sound {path : List Text} {e new : Expr} (h : e.update? fields path = some new)
    (he : e.Sound depth budget) : new.Sound depth budget ∧ new.around = e.around := by
  induction path generalizing e new depth budget with
  | nil =>
    cases e with
    | scalar => cases h
    | array => cases h
    | table entries dotted lead around =>
      cases h
      cases dotted with
      | false =>
        rw [Sound] at he ⊢
        obtain ⟨d, hd, hlead, hnodup, hsound⟩ := he
        obtain ⟨hkept, -⟩ := EntriesKept.setAll ⟨hnodup, hsound⟩ fields
        exact ⟨⟨d, hd, hlead, hkept.nodup, hkept.sound⟩, rfl⟩
      | true =>
        rw [Sound] at he ⊢
        obtain ⟨b, hb, hne, hnodup, hsound⟩ := he
        obtain ⟨hkept, hrest⟩ := EntriesKept.setAll ⟨hnodup, hsound⟩ fields
        exact ⟨⟨b, hb, hrest hne, hkept.nodup, hkept.sound⟩, rfl⟩
  | cons name path ih =>
    cases e with
    | scalar => cases h
    | array => cases h
    | table entries dotted lead around =>
      rw [update?] at h
      split at h
      · cases h
      · next key old hfind =>
        obtain ⟨sub, hsub, rfl⟩ := Option.map_eq_some_iff.mp h
        cases dotted with
        | false =>
          rw [Sound] at he ⊢
          obtain ⟨d, hd, hlead, hnodup, hsound⟩ := he
          have hnew := EntriesKept.replace_found ⟨hnodup, hsound⟩ hfind (ih hsub)
          exact ⟨⟨d, hd, hlead, hnew.nodup, hnew.sound⟩, rfl⟩
        | true =>
          rw [Sound] at he ⊢
          obtain ⟨b, hb, hne, hnodup, hsound⟩ := he
          have hnew := EntriesKept.replace_found ⟨hnodup, hsound⟩ hfind (ih hsub)
          refine ⟨⟨b, hb, ?_, hnew.nodup, hnew.sound⟩, rfl⟩
          rw [ne_eq, List.map_eq_nil_iff]
          exact hne

end Expr

namespace Entries

variable {lo hi depth body : Nat} {entries : Entries} {fields : List (Text × Text)}

theorem set_kept (hregular : entries.Regular lo hi) (hsound : entries.Sound depth body)
    (hshort : body + 1 < Key.maxPath) (name s : Text) :
    (set entries name s).Regular lo hi ∧ (set entries name s).Sound depth body ∧
      set entries name s ≠ [] := by
  unfold set
  split
  · next old hget =>
    refine ⟨hregular.replace trivial, hsound.replace hregular.nodup hget ?_
      ⟨hshort, Expr.sound_string s _, ?_⟩, replace_ne_nil hget⟩
    · intro key hfits
      cases old with
      | expr e => exact hfits
      | table kind sub => exact ⟨hfits.1, fun a ha => ⟨(hfits.2 a ha).1.gap, (hfits.2 a ha).2⟩⟩
      | tables elements => exact ⟨hfits.1, fun a ha => ⟨(hfits.2 a ha).1.gap, (hfits.2 a ha).2⟩⟩
    · rw [Expr.around_string]
      cases old with
      | expr e => exact (hsound.of_get? hget).2.2
      | table kind sub => simp [Around, Member.around]
      | tables elements => simp [Around, Member.around]
  · next hget =>
    refine ⟨hregular.append hget trivial, hsound.append ⟨Key.sound_new name, ?_⟩
      ⟨hshort, Expr.sound_string s none, ?_⟩, by simp⟩
    · simp [Around, Key.new]
    · simp [Around, Expr.around_string]

theorem setAll_kept (hregular : entries.Regular lo hi) (hsound : entries.Sound depth body)
    (hshort : body + 1 < Key.maxPath) (fields : List (Text × Text)) :
    let new := fields.foldl (fun entries (name, s) => set entries name s) entries
    new.Regular lo hi ∧ new.Sound depth body ∧ (entries ≠ [] → new ≠ []) := by
  induction fields generalizing entries with
  | nil => exact ⟨hregular, hsound, id⟩
  | cons field fields ih =>
    obtain ⟨hregular', hsound', hne⟩ := set_kept hregular hsound hshort field.1 field.2
    obtain ⟨hregular'', hsound'', hrest⟩ := ih hregular' hsound'
    exact ⟨hregular'', hsound'', fun _ => hrest hne⟩

end Entries

/-- An edit keeps what stands below a short path regular and sound. -/
theorem Member.update?_kept {fields : List (Text × Text)} {path : List Text} {member new : Member}
    (h : member.update? fields path = some new) {lo hi depth body : Nat}
    (hregular : member.Regular lo hi) (hsound : member.Sound depth body)
    (hshort : body + path.length + 2 < Key.maxPath) :
    new.Regular lo hi ∧ new.Sound depth body ∧ ∀ key : Key, key.Fits member → key.Fits new := by
  induction path generalizing member new depth body with
  | nil =>
    cases member with
    | expr e =>
      obtain ⟨e', he, rfl⟩ := Option.map_eq_some_iff.mp h
      obtain ⟨hnew, hsame⟩ := Expr.update?_sound he hsound.2.1
      exact ⟨trivial, ⟨hsound.1, hnew, hsame ▸ hsound.2.2⟩, fun _ hfits => hfits⟩
    | table kind entries =>
      cases h
      have hentries' := hregular.entries
      obtain ⟨hkind, hempty, -⟩ := hregular
      obtain ⟨hdepth, hheading, hentries⟩ := hsound
      have hbody : kind.bodyDepth body + 1 < Key.maxPath := by
        simp only [List.length_nil] at hshort
        cases kind <;> simp only [TableKind.bodyDepth] <;> omega
      obtain ⟨hregular', hsound', hne⟩ := Entries.setAll_kept hentries'
        (entriesSound_iff.mp hentries) hbody fields
      exact ⟨⟨hkind, fun hnil => hempty (Classical.byContradiction fun hold => hne hold hnil), hregular'.nodup,
        entriesRegular_iff.mpr hregular'.members⟩,
        ⟨hdepth, hheading, entriesSound_iff.mpr hsound'⟩, fun _ hfits => hfits⟩
    | tables elements => cases h
  | cons name path ih =>
    cases member with
    | expr e =>
      obtain ⟨e', he, rfl⟩ := Option.map_eq_some_iff.mp h
      obtain ⟨hnew, hsame⟩ := Expr.update?_sound he hsound.2.1
      exact ⟨trivial, ⟨hsound.1, hnew, hsame ▸ hsound.2.2⟩, fun _ hfits => hfits⟩
    | table kind entries =>
      rw [update?] at h
      split at h
      · cases h
      · next old hget =>
        obtain ⟨sub, hsub, rfl⟩ := Option.map_eq_some_iff.mp h
        have hentries := hregular.entries
        obtain ⟨hdepth, hheading, hbelow⟩ := hsound
        have hbelow := entriesSound_iff.mp hbelow
        have hbody : kind.bodyDepth body + path.length + 2 < Key.maxPath := by
          simp only [List.length_cons] at hshort
          cases kind <;> simp only [TableKind.bodyDepth] <;> omega
        obtain ⟨hregular', hsound', hfits⟩ :=
          ih hsub (hentries.of_get? hget) (hbelow.of_get? hget) hbody
        exact ⟨regular_table (hentries.replace hregular') (Entries.replace_ne_nil hget) hregular.1,
          ⟨hdepth, hheading, entriesSound_iff.mpr
            (hbelow.replace hentries.nodup hget hfits hsound')⟩, fun _ hfits => hfits⟩
    | tables elements => cases h

/-- The document after an edit is as regular and sound as before. -/
theorem Document.update?_kept {doc new : Document} {table : Text} {path : List Text}
    {fields : List (Text × Text)} (h : doc.update? table path fields = some new) {lo hi : Nat}
    (hregular : doc.root.Regular lo hi) (hsound : doc.root.Sound 0 0)
    (hshort : path.length + 2 < Key.maxPath) :
    new.root.Regular lo hi ∧ new.root.Sound 0 0 ∧ new.trail = doc.trail := by
  unfold update? at h
  split at h
  · cases h
  · next member hget =>
    obtain ⟨sub, hsub, rfl⟩ := Option.map_eq_some_iff.mp h
    obtain ⟨hregular', hsound', hfits⟩ := Member.update?_kept hsub (hregular.of_get? hget)
      (hsound.of_get? hget) (by omega)
    exact ⟨hregular.replace hregular', hsound.replace hregular.nodup hget hfits hsound', rfl⟩

end DeploymentRecords.Toml
