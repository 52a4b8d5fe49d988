import DeploymentRecords.Proofs.SourceFields

/-! # The block of a constant among other text

The block of a constant lies between the first head of its name and the first `};` behind that head,
whatever the name is. What stands in front of the head or behind the `};`, other heads of the same name
and other `};` included, changes nothing in the table of the constant. -/

namespace DeploymentRecords.SourceTable

open Text

inductive Spaced : List Text → Text → Prop
  | nil : Spaced [] []
  | cons {blanks token s : Text} {tokens : List Text} (hblanks : ∀ c ∈ blanks, isBlank c = true)
      (htokens : Spaced tokens s) : Spaced (token :: tokens) (blanks ++ (token ++ s))

def signatureTokens : List Text :=
  [":".toList, "Deployment".toList, "=".toList, "Deployment".toList, "\x7b".toList]

/-- `pub const NAME: Deployment = Deployment {` with any white space in front of what follows the name,
which is spelt in capitals. -/
def IsHead (constant head : Text) : Prop :=
  ∃ signature, Spaced signatureTokens signature ∧ head = "pub const ".toList ++ (upper constant ++ signature)

def blockEnd : Text := "\x7d;".toList

/-- A file divided at the first head of a constant and at the first `};` behind that head. -/
structure Divided (constant content before head body after : Text) : Prop where
  head_first : FirstPart (IsHead constant) content before head (body ++ (blockEnd ++ after))
  body_quiet : contains blockEnd body = false

variable {constant content before head body after rest s : Text} {tokens : List Text}

theorem takes_afterTokens? (h : ∀ token ∈ tokens, token ≠ [] ∧ Stops isBlank token) :
    Takes (afterTokens? tokens) (Spaced tokens) fun _ after => after := by
  induction tokens with
  | nil =>
    intro s rest
    constructor
    · intro hread
      exact ⟨[], s, rfl, .nil, (Option.some.inj hread).symm⟩
    · rintro ⟨_, _, rfl, ⟨⟩, rfl⟩
      rfl
  | cons token tokens ih =>
    obtain ⟨hne, hstops⟩ := h token List.mem_cons_self
    have ih := ih fun t ht => h t (List.mem_cons_of_mem token ht)
    intro s rest
    constructor
    · intro hread
      obtain ⟨t, ht, hread⟩ := Option.bind_eq_some_iff.mp hread
      obtain ⟨found, _, rfl, hfound, rfl⟩ := (ih t rest).mp hread
      refine ⟨s.takeWhile isBlank ++ (token ++ found), rest, ?_,
        .cons (List.all_eq_true.mp List.all_takeWhile) hfound, rfl⟩
      calc s = s.takeWhile isBlank ++ skipBlanks s := List.takeWhile_append_dropWhile.symm
        _ = s.takeWhile isBlank ++ (token ++ (found ++ rest)) := by rw [after?_eq_some_iff.mp ht]
        _ = s.takeWhile isBlank ++ (token ++ found) ++ rest := by simp
    · rintro ⟨_, _, rfl, hspaced, rfl⟩
      cases hspaced with
      | @cons blanks _ found _ hblanks hfound =>
        have hskip : skipBlanks (blanks ++ (token ++ found) ++ rest) = token ++ (found ++ rest) := by
          rw [List.append_assoc, List.append_assoc]
          refine dropWhile_run hblanks fun c hc => hstops c ?_
          obtain ⟨d, token, rfl⟩ := List.exists_cons_of_ne_nil hne
          exact hc
        rw [afterTokens?, hskip, after?_append, Option.bind_some]
        exact ih.read_append hfound rest

theorem takes_afterHead? (constant : Text) :
    Takes (afterHead? (upper constant)) (IsHead constant) fun _ after => after := by
  have htokens : Takes (afterTokens? signatureTokens) (Spaced signatureTokens) fun _ after => after :=
    takes_afterTokens? (by simp only [signatureTokens, List.forall_mem_cons]; simp; decide)
  intro s rest
  constructor
  · intro hread
    obtain ⟨t, ht, hread⟩ := Option.bind_eq_some_iff.mp hread
    obtain ⟨signature, _, rfl, hsignature, rfl⟩ := (htokens t rest).mp hread
    refine ⟨_, rest, ?_, ⟨signature, hsignature, rfl⟩, rfl⟩
    rw [after?_eq_some_iff.mp ht]
    simp
  · rintro ⟨_, _, rfl, ⟨signature, hsignature, rfl⟩, rfl⟩
    refine Option.bind_eq_some_iff.mpr ⟨signature ++ rest, after?_eq_some_iff.mpr (by simp), ?_⟩
    exact htokens.read_append hsignature rest

instance : Decidable (Lacks (IsHead constant) content) :=
  decidable_of_iff _ (takes_afterHead? constant).search?_eq_none_iff

instance : Decidable (FirstPart (IsHead constant) content before head rest) :=
  decidable_of_iff' _ (takes_afterHead? constant).firstPart_iff

theorem block?_eq_none_of_lacks (h : Lacks (IsHead constant) content) : block? content constant = none := by
  rw [block?, (takes_afterHead? constant).search?_eq_none_iff.mpr h]

/-- Behind the first head a file is cut at the first end of a block. -/
theorem block?_of_firstPart (h : FirstPart (IsHead constant) content before head rest) :
    block? content constant = (cut? blockEnd rest).map (·.1) := by
  rw [block?, (takes_afterHead? constant).search?_eq_some_iff.mpr ⟨before, head, rest, h, rfl⟩]
  rfl

theorem cut?_blockEnd : cut? blockEnd rest = some (body, after) ↔
    rest = body ++ (blockEnd ++ after) ∧ contains blockEnd body = false :=
  cut?_eq_some_iff (show '\x7d' ∉ [';'] by decide)

theorem Divided.block? (h : Divided constant content before head body after) :
    block? content constant = some body := by
  rw [block?_of_firstPart h.head_first, cut?_blockEnd.mpr ⟨rfl, h.body_quiet⟩, Option.map_some]

theorem Divided.alone (h : Divided constant content before head body after) :
    Divided constant (head ++ (body ++ blockEnd)) [] head body [] where
  head_first := by
    rw [List.append_nil]
    exact firstPart_front h.head_first.holds _
  body_quiet := h.body_quiet

theorem exists_divided (h : FirstPart (IsHead constant) content before head rest)
    (hend : contains blockEnd rest = true) : ∃ body after, Divided constant content before head body after := by
  rw [← isSome_cut?, Option.isSome_iff_exists] at hend
  obtain ⟨⟨body, after⟩, hcut⟩ := hend
  obtain ⟨rfl, hquiet⟩ := cut?_blockEnd.mp hcut
  exact ⟨body, after, h, hquiet⟩

theorem read_congr {content' constant' : Text} (h : block? content constant = block? content' constant') :
    read content constant = read content' constant' := by
  rw [read, read, h]

/-- A file has no head of a constant, or nothing that ends the block behind the first one, and then
the constant has no table; or the file is divided there, and the table is that of the head with its
block alone, whatever surrounds them. -/
theorem read_isolated (content constant : Text) :
    (Lacks (IsHead constant) content ∨
      (∃ before head rest, FirstPart (IsHead constant) content before head rest ∧
        contains blockEnd rest = false) ∨
      ∃ before head body after, Divided constant content before head body after) ∧
    (Lacks (IsHead constant) content → read content constant = []) ∧
    (∀ before head rest, FirstPart (IsHead constant) content before head rest →
      contains blockEnd rest = false → read content constant = []) ∧
    ∀ before head body after, Divided constant content before head body after →
      read content constant = read (head ++ (body ++ blockEnd)) constant ∧
      ∀ content' before' head' after', Divided constant content' before' head' body after' →
        read content' constant = read content constant := by
  refine ⟨?_, fun hlacks => ?_, fun before head rest hfirst hend => ?_,
    fun before head body after hdivided => ⟨?_, ?_⟩⟩
  · by_cases hlacks : Lacks (IsHead constant) content
    · exact Or.inl hlacks
    obtain ⟨before, head, rest, hfirst⟩ := (takes_afterHead? constant).exists_first hlacks
    cases hend : contains blockEnd rest with
    | false => exact Or.inr (Or.inl ⟨before, head, rest, hfirst, hend⟩)
    | true => exact Or.inr (Or.inr ⟨before, head, exists_divided hfirst hend⟩)
  · rw [read, block?_eq_none_of_lacks hlacks]
  · rw [read, block?_of_firstPart hfirst, cut?_eq_none_iff.mpr hend]
    rfl
  · exact read_congr (hdivided.block?.trans hdivided.alone.block?.symm)
  · intro content' before' head' after' hdivided'
    exact read_congr (hdivided'.block?.trans hdivided.block?.symm)

def otherConstant : Text := "pub const V1XB: Deployment = Deployment \x7b zkc_address: None, \x7d;\n".toList

def spacedHead : Text := "pub const V1.B :Deployment\n=Deployment\x7b".toList

def bracedBody : Text :=
  "Inner \x7b zkc_address: Some(address!(\"0xABCDEFabcdef0123456789ABCDEFabcdef012345\")), \x7d".toList

def repeatedConstant : Text := "\npub const V1.B: Deployment = Deployment \x7b \x7d;".toList

theorem read_isolated_braced :
    let content := otherConstant ++ (spacedHead ++ (bracedBody ++ (blockEnd ++ repeatedConstant)))
    let unended := otherConstant ++ (spacedHead ++ bracedBody)
    Divided "v1.b".toList content otherConstant spacedHead bracedBody repeatedConstant ∧
    read content "v1.b".toList = read (spacedHead ++ (bracedBody ++ blockEnd)) "v1.b".toList ∧
    FirstPart (IsHead "v1.b".toList) unended otherConstant spacedHead bracedBody ∧
    contains blockEnd bracedBody = false ∧ read unended "v1.b".toList = [] ∧
    Lacks (IsHead "v1.b".toList) otherConstant ∧ read otherConstant "v1.b".toList = [] := by
  have hquiet : contains blockEnd bracedBody = false := by decide +kernel
  have hdivided : Divided "v1.b".toList
      (otherConstant ++ (spacedHead ++ (bracedBody ++ (blockEnd ++ repeatedConstant))))
      otherConstant spacedHead bracedBody repeatedConstant := ⟨by decide +kernel, hquiet⟩
  have hunended : FirstPart (IsHead "v1.b".toList) (otherConstant ++ (spacedHead ++ bracedBody))
      otherConstant spacedHead bracedBody := by decide +kernel
  have hlacks : Lacks (IsHead "v1.b".toList) otherConstant := by decide +kernel
  exact ⟨hdivided, ((read_isolated _ _).2.2.2 _ _ _ _ hdivided).1, hunended, hquiet,
    (read_isolated _ _).2.2.1 _ _ _ hunended hquiet, hlacks, (read_isolated _ _).2.1 hlacks⟩

end DeploymentRecords.SourceTable
