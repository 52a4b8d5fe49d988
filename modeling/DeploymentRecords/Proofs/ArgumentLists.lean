import DeploymentRecords.Proofs.GivenFlags
import DeploymentRecords.Proofs.WrittenFiles
import Mathlib.Data.List.TakeWhile

/-! # Lists of arguments

Arguments are read as flags with their values, in either of two spellings, for as long as each flag is
known and new. What stands behind the last of them decides: nothing, a request for help, or an argument
that cannot be used. -/

namespace DeploymentRecords

open Files

namespace Files.Tree

theorem decode?_eq_some {bytes : ByteArray} {s : Text} : decode? bytes = some s ↔ bytes = encode s := by
  constructor
  · intro h
    obtain ⟨t, ht, rfl⟩ := Option.map_eq_some_iff.mp h
    unfold String.fromUTF8? at ht
    split at ht
    · obtain rfl := Option.some.inj ht
      rw [encode, String.ofList_toList]
      rfl
    · cases ht
  · rintro rfl
    exact decode?_encode s

end Files.Tree

namespace Command

/-- A text behind two hyphens that is the name of a flag, or a name and a value with an equals sign in
between. Alone, a name is neither empty nor that of the request for help. -/
inductive Body : Text → Option Text → Text → Prop
  | alone {name : Text} (hname : '=' ∉ name) (hne : name ≠ []) (hhelp : name ≠ "help".toList) :
      Body name none name
  | joined {name value : Text} (hname : '=' ∉ name) : Body name (some value) (name ++ '=' :: value)

inductive Means : Text → Argument → Prop
  | stop : Means "--".toList .stop
  | help : Means "--help".toList .help
  | briefHelp (s : Text) : Means ('-' :: 'h' :: s) .help
  | flag {name body : Text} {value : Option Text} (h : Body name value body) :
      Means ("--".toList ++ body) (.flag name value)
  | brief {c : Char} (s : Text) (hhyphen : c ≠ '-') (hh : c ≠ 'h') : Means ('-' :: c :: s) .other
  | positional {s : Text} (h : s = ['-'] ∨ s.head? ≠ some '-') : Means s .other

theorem ofText_hyphens {name : Text} (hname : '=' ∉ name) (rest : Text) (hne : name ++ rest ≠ []) :
    Argument.ofText ("--".toList ++ (name ++ rest)) =
      match rest.dropWhile (· ≠ '=') with
      | [] =>
        if name ++ rest.takeWhile (· ≠ '=') = "help".toList then .help
        else .flag (name ++ rest.takeWhile (· ≠ '=')) none
      | _ :: value => .flag (name ++ rest.takeWhile (· ≠ '=')) (some value) := by
  have hall : ∀ c ∈ name, decide (c ≠ '=') = true := fun c hc => decide_eq_true fun he => hname (he ▸ hc)
  rw [← List.takeWhile_append_of_pos hall, ← List.dropWhile_append_of_pos hall]
  obtain ⟨c, s, hbody⟩ := List.exists_cons_of_ne_nil hne
  rw [hbody]
  rfl

theorem Body.free {name body : Text} {value : Option Text} (h : Body name value body) : '=' ∉ name := by
  cases h <;> assumption

theorem Body.ofText {name body : Text} {value : Option Text} (h : Body name value body) :
    Argument.ofText ("--".toList ++ body) = .flag name value := by
  cases h with
  | alone hname hne hhelp =>
    have h := ofText_hyphens hname [] (by simpa using hne)
    simp only [List.takeWhile_nil, List.dropWhile_nil, List.append_nil, if_neg hhelp] at h
    exact h
  | joined hname =>
    rw [ofText_hyphens hname _ (by simp)]
    simp

theorem Means.ofText {s : Text} {argument : Argument} (h : Means s argument) :
    Argument.ofText s = argument := by
  cases h with
  | stop => rfl
  | help => rfl
  | briefHelp s => rfl
  | flag h => exact h.ofText
  | brief s hhyphen hh => simp [Argument.ofText, hhyphen, hh]
  | positional h =>
    rcases h with rfl | h
    · rfl
    · unfold Argument.ofText
      split <;> simp at h ⊢

/-- Every text means something. -/
theorem means_ofText (s : Text) : Means s (Argument.ofText s) := by
  unfold Argument.ofText
  split
  · exact .stop
  next body hbody =>
    have hsplit := List.takeWhile_append_dropWhile (p := (· ≠ '=')) (l := body)
    have hname : '=' ∉ body.takeWhile (· ≠ '=') := fun hm => by simpa using List.mem_takeWhile_imp hm
    split
    · next hend =>
      rw [hend, List.append_nil] at hsplit
      rw [hsplit] at hname ⊢
      dsimp only
      split
      · next hhelp => exact hhelp ▸ .help
      · next hhelp => exact .flag (.alone hname hbody hhelp)
    · next c value hrest =>
      have hsign : c = '=' := by
        have h := List.head?_dropWhile_not (· ≠ '=') body
        rw [hrest] at h
        simpa using h
      rw [hrest, hsign] at hsplit
      have h : Means ("--".toList ++ (body.takeWhile (· ≠ '=') ++ '=' :: value)) (.flag _ (some value)) :=
        .flag (.joined hname)
      rwa [hsplit] at h
  · exact .briefHelp _
  · next hstop hflag hhelp =>
    match s with
    | [] => exact .positional (Or.inr (by simp))
    | [c] =>
      by_cases hc : c = '-'
      · exact .positional (Or.inl (by rw [hc]))
      · exact .positional (Or.inr (by simpa using hc))
    | c :: d :: s =>
      by_cases hc : c = '-'
      · subst hc
        exact .brief s (fun hd => hflag s (by rw [hd])) (fun hd => hhelp s (by rw [hd]))
      · exact .positional (Or.inr (by simpa using hc))

theorem ofBytes_encode {s : Text} {argument : Argument} (h : Means s argument) :
    Argument.ofBytes (Tree.encode s) = argument := by
  rw [Argument.ofBytes, Tree.decode?_encode]
  exact h.ofText

theorem isValue_iff {s : Text} : isValue s = true ↔ s = [] ∨ s = ['-'] ∨ s.head? ≠ some '-' := by
  match s with
  | [] => simp [isValue]
  | [c] => by_cases hc : c = '-' <;> simp [isValue, hc]
  | c :: d :: s => by_cases hc : c = '-' <;> simp [isValue, hc]

theorem dashed_of_not_isValue {s : Text} (h : ¬ isValue s = true) : ∃ c rest, s = '-' :: c :: rest := by
  unfold isValue at h
  split at h
  · exact ⟨_, _, rfl⟩
  · exact absurd rfl h

/-- The arguments that spell flags: each of them with its value behind an equals sign, or with its value
in the next argument, if that does not look like a flag. -/
inductive Spelled : List (Text × Text) → List ByteArray → Prop
  | nil : Spelled [] []
  | joined {pairs : List (Text × Text)} {args : List ByteArray} (flag value : Text)
      (h : Spelled pairs args) :
      Spelled ((flag, value) :: pairs) (Tree.encode ("--".toList ++ flag ++ '=' :: value) :: args)
  | separate {pairs : List (Text × Text)} {args : List ByteArray} (flag : Text) {value : Text}
      (hvalue : value = [] ∨ value = ['-'] ∨ value.head? ≠ some '-') (h : Spelled pairs args) :
      Spelled ((flag, value) :: pairs)
        (Tree.encode ("--".toList ++ flag) :: Tree.encode value :: args)

inductive AsksHelp : List ByteArray → Prop
  | long (rest : List ByteArray) : AsksHelp (Tree.encode "--help".toList :: rest)
  | brief (s : Text) (rest : List ByteArray) : AsksHelp (Tree.encode ('-' :: 'h' :: s) :: rest)
  | noText {arg : ByteArray} (rest : List ByteArray) (htext : Tree.decode? arg = none)
      (hbrief : [0x2D, 0x68] <+: arg.data.toList) : AsksHelp (arg :: rest)

/-- The first argument cannot be used behind the flags that are given: it is no text, positional or an
unknown short option, or stands behind the mark of the end; or it is a flag that is unknown, given already or
followed by no value. -/
inductive Offence (known given : List Text) : List ByteArray → Prop
  | noText {arg : ByteArray} (rest : List ByteArray) (htext : Tree.decode? arg = none)
      (hbrief : ¬ [0x2D, 0x68] <+: arg.data.toList) : Offence known given (arg :: rest)
  | positional {s : Text} (rest : List ByteArray) (h : s = ['-'] ∨ s.head? ≠ some '-') :
      Offence known given (Tree.encode s :: rest)
  | brief {c : Char} (s : Text) (rest : List ByteArray) (hhyphen : c ≠ '-') (hh : c ≠ 'h') :
      Offence known given (Tree.encode ('-' :: c :: s) :: rest)
  | behindStop (arg : ByteArray) (rest : List ByteArray) :
      Offence known given (Tree.encode "--".toList :: arg :: rest)
  | unknown {name body : Text} {value : Option Text} (rest : List ByteArray) (hbody : Body name value body)
      (h : name ∉ known) : Offence known given (Tree.encode ("--".toList ++ body) :: rest)
  | repeated {name body : Text} {value : Option Text} (rest : List ByteArray)
      (hbody : Body name value body) (h : name ∈ given) :
      Offence known given (Tree.encode ("--".toList ++ body) :: rest)
  | noValue {name : Text} {rest : List ByteArray} (hbody : Body name none name)
      (h : ∀ value others, rest = Tree.encode value :: others → ∃ c s, value = '-' :: c :: s) :
      Offence known given (Tree.encode ("--".toList ++ name) :: rest)

theorem Offence.mono {known given given' : List Text} {args : List ByteArray}
    (h : Offence known given args) (hsub : given ⊆ given') : Offence known given' args := by
  cases h with
  | noText rest htext hbrief => exact .noText rest htext hbrief
  | positional rest h => exact .positional rest h
  | brief s rest hhyphen hh => exact .brief s rest hhyphen hh
  | behindStop arg rest => exact .behindStop arg rest
  | unknown rest hbody h => exact .unknown rest hbody h
  | repeated rest hbody h => exact .repeated rest hbody (hsub h)
  | noValue hbody h => exact .noValue hbody h

theorem Body.offence_of_no_value {known given : List Text} {name body : Text} {rest : List ByteArray}
    (hbody : Body name none body)
    (h : ∀ value others, rest = Tree.encode value :: others → ∃ c s, value = '-' :: c :: s) :
    Offence known given (Tree.encode ("--".toList ++ body) :: rest) := by
  cases hbody with
  | alone hname hne hhelp => exact .noValue (.alone hname hne hhelp) h

/-- What decides behind the flags at the front: their end, which two hyphens may mark, a request for help,
or an offence. -/
inductive Decision (known : List Text) (given : List (Text × Text)) : List ByteArray → Request → Prop
  | done : Decision known given [] (.flags given)
  | stopped : Decision known given [Tree.encode "--".toList] (.flags given)
  | help {args : List ByteArray} (h : AsksHelp args) : Decision known given args .help
  | misuse {args : List ByteArray} (h : Offence known (given.map Prod.fst) args) :
      Decision known given args .misuse

inductive Stands : ByteArray → Argument → Prop
  | text {s : Text} {argument : Argument} (h : Means s argument) : Stands (Tree.encode s) argument
  | help {arg : ByteArray} (htext : Tree.decode? arg = none) (hbrief : [0x2D, 0x68] <+: arg.data.toList) :
      Stands arg .help
  | other {arg : ByteArray} (htext : Tree.decode? arg = none)
      (hbrief : ¬ [0x2D, 0x68] <+: arg.data.toList) : Stands arg .other

theorem stands_ofBytes (arg : ByteArray) : Stands arg (Argument.ofBytes arg) := by
  unfold Argument.ofBytes
  cases htext : Tree.decode? arg with
  | some s =>
    obtain rfl := Tree.decode?_eq_some.mp htext
    exact .text (means_ofText s)
  | none =>
    dsimp only
    split
    · next hbrief => exact .help htext (List.isPrefixOf_iff_prefix.mp hbrief)
    · next hbrief => exact .other htext fun hprefix => hbrief (List.isPrefixOf_iff_prefix.mpr hprefix)

theorem Stands.eq_encode_of_flag {arg : ByteArray} {name : Text} {value : Option Text}
    (h : Stands arg (.flag name value)) :
    ∃ body, Body name value body ∧ arg = Tree.encode ("--".toList ++ body) := by
  cases h with
  | text hmeans =>
    cases hmeans with
    | flag hbody => exact ⟨_, hbody, rfl⟩

theorem Stands.eq_encode_of_stop {arg : ByteArray} (h : Stands arg .stop) :
    arg = Tree.encode "--".toList := by
  cases h with
  | text hmeans =>
    cases hmeans
    rfl

theorem Stands.asksHelp {arg : ByteArray} (h : Stands arg .help) (rest : List ByteArray) :
    AsksHelp (arg :: rest) := by
  cases h with
  | help htext hbrief => exact .noText rest htext hbrief
  | text hmeans =>
    cases hmeans with
    | help => exact .long rest
    | briefHelp s => exact .brief s rest

theorem Stands.offence {known given : List Text} {arg : ByteArray} (h : Stands arg .other)
    (rest : List ByteArray) : Offence known given (arg :: rest) := by
  cases h with
  | other htext hbrief => exact .noText rest htext hbrief
  | text hmeans =>
    cases hmeans with
    | brief s hhyphen hh => exact .brief s rest hhyphen hh
    | positional h => exact .positional rest h

namespace Request

variable {known : List Text} {given pairs : List (Text × Text)} {args front rest : List ByteArray}
  {request : Request}

theorem allows_iff {name : Text} : allows known given name = true ↔
    name ∈ known ∧ name ∉ given.map Prod.fst := by
  have hnone : given.lookup name = none ↔ name ∉ given.map Prod.fst := by
    rw [List.lookup_eq_none_iff]
    constructor
    · intro h hmem
      obtain ⟨pair, hpair, rfl⟩ := List.mem_map.mp hmem
      simpa using h pair hpair
    · exact fun h pair hpair => bne_iff_ne.mpr fun he => h (he ▸ List.mem_map_of_mem hpair)
  simp [allows, hnone]

/-- Behind the flags that are given the arguments spell more of them, and what follows decides. -/
def ReadsAs (known : List Text) (given : List (Text × Text)) (args : List ByteArray) (request : Request) :
    Prop :=
  ∃ pairs front rest, args = front ++ rest ∧ Spelled pairs front ∧ Admissible known (pairs.reverse ++ given) ∧
    Decision known (pairs.reverse ++ given) rest request

theorem ReadsAs.decided (hgiven : Admissible known given) (h : Decision known given args request) :
    ReadsAs known given args request :=
  ⟨[], [], args, rfl, .nil, hgiven, h⟩

theorem ReadsAs.joined {flag value : Text} (h : ReadsAs known ((flag, value) :: given) args request) :
    ReadsAs known given (Tree.encode ("--".toList ++ flag ++ '=' :: value) :: args) request := by
  obtain ⟨pairs, front, rest, rfl, hspelled, hadmissible, hdecision⟩ := h
  refine ⟨(flag, value) :: pairs, _ :: front, rest, rfl, .joined flag value hspelled, ?_, ?_⟩
  · simpa using hadmissible
  · simpa using hdecision

theorem ReadsAs.separate {flag value : Text} (hvalue : isValue value = true)
    (h : ReadsAs known ((flag, value) :: given) args request) :
    ReadsAs known given (Tree.encode ("--".toList ++ flag) :: Tree.encode value :: args) request := by
  obtain ⟨pairs, front, rest, rfl, hspelled, hadmissible, hdecision⟩ := h
  refine ⟨(flag, value) :: pairs, _ :: _ :: front, rest, rfl,
    .separate flag (isValue_iff.mp hvalue) hspelled, ?_, ?_⟩
  · simpa using hadmissible
  · simpa using hdecision

theorem offence_of_not_allows {name body : Text} {value : Option Text} (hbody : Body name value body)
    (h : ¬ allows known given name = true) (rest : List ByteArray) :
    Offence known (given.map Prod.fst) (Tree.encode ("--".toList ++ body) :: rest) := by
  rw [allows_iff, not_and_or, not_not] at h
  rcases h with h | h
  · exact .unknown rest hbody h
  · exact .repeated rest hbody h

/-- Every list of arguments is read by its flags at the front and by what follows them. -/
theorem readsAs_readFrom (hgiven : Admissible known given) :
    ReadsAs known given args (readFrom known given args) := by
  have hstands : ∀ {arg : ByteArray} {argument : Argument}, Argument.ofBytes arg = argument →
      Stands arg argument := fun h => h ▸ stands_ofBytes _
  -- a flag that is read goes to the front; every other argument decides
  fun_induction readFrom known given args
  case case1 => exact .decided hgiven .done
  case case2 hother => exact .decided hgiven (.misuse ((hstands hother).offence _))
  case case3 hstop hnil =>
    rw [(hstands hstop).eq_encode_of_stop, List.isEmpty_iff.mp hnil]
    exact .decided hgiven .stopped
  case case4 hstop hmore =>
    rw [List.isEmpty_iff] at hmore
    obtain ⟨arg, rest, rfl⟩ := List.exists_cons_of_ne_nil hmore
    rw [(hstands hstop).eq_encode_of_stop]
    exact .decided hgiven (.misuse (.behindStop arg rest))
  case case5 hhelp => exact .decided hgiven (.help ((hstands hhelp).asksHelp _))
  case case6 name value hflag hallows ih =>
    obtain ⟨_, hbody, rfl⟩ := (hstands hflag).eq_encode_of_flag
    cases hbody
    exact (ih (hgiven.cons hallows value)).joined
  case case7 hflag hallows =>
    obtain ⟨_, hbody, rfl⟩ := (hstands hflag).eq_encode_of_flag
    exact .decided hgiven (.misuse (offence_of_not_allows hbody hallows _))
  case case8 hflag =>
    obtain ⟨_, hbody, rfl⟩ := (hstands hflag).eq_encode_of_flag
    exact .decided hgiven (.misuse (hbody.offence_of_no_value (by simp)))
  case case9 hflag value args hvalue =>
    obtain ⟨_, hbody, rfl⟩ := (hstands hflag).eq_encode_of_flag
    refine .decided hgiven (.misuse (hbody.offence_of_no_value fun s others he => ?_))
    obtain ⟨rfl, -⟩ := List.cons.inj he
    rw [Tree.decode?_encode] at hvalue
    cases hvalue
  case case10 hflag _ _ value hvalue hallows ih =>
    obtain ⟨_, hbody, rfl⟩ := (hstands hflag).eq_encode_of_flag
    obtain rfl := Tree.decode?_eq_some.mp hvalue
    cases hbody
    exact (ih (hgiven.cons hallows.1 value)).separate hallows.2
  case case11 hflag _ _ value hvalue hallows =>
    obtain ⟨_, hbody, rfl⟩ := (hstands hflag).eq_encode_of_flag
    rw [not_and_or] at hallows
    rcases hallows with hallows | hdash
    · exact .decided hgiven (.misuse (offence_of_not_allows hbody hallows _))
    · refine .decided hgiven (.misuse (hbody.offence_of_no_value fun s others he => ?_))
      obtain ⟨hencode, -⟩ := List.cons.inj he
      obtain rfl : value = s := Option.some.inj (hvalue.symm.trans (Tree.decode?_eq_some.mpr hencode))
      exact dashed_of_not_isValue hdash

theorem readFrom_joined {name value : Text} (hname : '=' ∉ name) (hallows : allows known given name = true) :
    readFrom known given (Tree.encode ("--".toList ++ name ++ '=' :: value) :: args) =
      readFrom known ((name, value) :: given) args := by
  rw [readFrom, List.append_assoc, ofBytes_encode (.flag (.joined hname))]
  simp only [hallows, if_true]

theorem readFrom_alone {name : Text} (hbody : Body name none name) (arg : ByteArray) :
    readFrom known given (Tree.encode ("--".toList ++ name) :: arg :: args) =
      match Tree.decode? arg with
      | none => .misuse
      | some value =>
        if allows known given name ∧ isValue value then readFrom known ((name, value) :: given) args
        else .misuse := by
  cases htext : Tree.decode? arg <;>
    simp only [readFrom, ofBytes_encode (.flag hbody), htext]

theorem readFrom_separate {name value : Text} (hbody : Body name none name)
    (hallows : allows known given name = true) (hvalue : isValue value = true) :
    readFrom known given (Tree.encode ("--".toList ++ name) :: Tree.encode value :: args) =
      readFrom known ((name, value) :: given) args := by
  rw [readFrom_alone hbody, Tree.decode?_encode]
  exact if_pos ⟨hallows, hvalue⟩

theorem Admissible.perm (h : Admissible known given) (hperm : given.Perm pairs) : Admissible known pairs :=
  ⟨fun name hname => h.known name ((hperm.map Prod.fst).mem_iff.mpr hname),
    (hperm.map Prod.fst).nodup_iff.mp h.nodup⟩

theorem Admissible.allows {flag value : Text}
    (h : Admissible known (((flag, value) :: pairs).reverse ++ given)) :
    allows known given flag = true := by
  have hfront : Admissible known ((flag, value) :: (pairs.reverse ++ given)) :=
    h.perm (by simp)
  have hfresh := (List.nodup_cons.mp hfront.nodup).1
  refine allows_iff.mpr ⟨hfront.known flag (by simp), fun hmem => hfresh ?_⟩
  rw [List.map_append]
  exact List.mem_append_right _ hmem

/-- Flags that are known and different from each other are read one after the other. -/
theorem readFrom_spelled (hknown : ∀ name ∈ known, Body name none name) (h : Spelled pairs front)
    (hadmissible : Admissible known (pairs.reverse ++ given)) :
    readFrom known given (front ++ rest) = readFrom known (pairs.reverse ++ given) rest := by
  induction h generalizing given with
  | nil => rfl
  | @joined pairs _ flag value _ ih =>
    have hallows := hadmissible.allows
    have hbody := hknown flag (allows_iff.mp hallows).1
    rw [List.reverse_cons, List.append_assoc (List.reverse _), List.singleton_append] at hadmissible ⊢
    rw [List.cons_append, readFrom_joined hbody.free hallows, ih hadmissible]
  | @separate pairs _ flag value hvalue _ ih =>
    have hallows := hadmissible.allows
    have hbody := hknown flag (allows_iff.mp hallows).1
    rw [List.reverse_cons, List.append_assoc (List.reverse _), List.singleton_append] at hadmissible ⊢
    rw [List.cons_append, List.cons_append, readFrom_separate hbody hallows (isValue_iff.mpr hvalue),
      ih hadmissible]

theorem readFrom_end {name : Text} (hbody : Body name none name) :
    readFrom known given [Tree.encode ("--".toList ++ name)] = .misuse := by
  rw [readFrom, ofBytes_encode (.flag hbody)]

theorem readFrom_of_not_allows {name body : Text} {value : Option Text} (hbody : Body name value body)
    (h : ¬ allows known given name = true) :
    readFrom known given (Tree.encode ("--".toList ++ body) :: args) = .misuse := by
  cases hbody with
  | joined hname =>
    rw [readFrom, ofBytes_encode (.flag (.joined hname))]
    exact if_neg h
  | alone hname hne hhelp =>
    cases args with
    | nil => exact readFrom_end (.alone hname hne hhelp)
    | cons arg args =>
      rw [readFrom_alone (.alone hname hne hhelp)]
      cases Tree.decode? arg with
      | none => rfl
      | some s => exact if_neg fun hboth => h hboth.1

theorem readFrom_of_offence (h : Offence known (given.map Prod.fst) args) :
    readFrom known given args = .misuse := by
  cases h with
  | @noText arg rest htext hbrief =>
    have hother : Argument.ofBytes arg = .other := by
      rw [Argument.ofBytes, htext]
      exact if_neg fun hprefix => hbrief (List.isPrefixOf_iff_prefix.mp hprefix)
    rw [readFrom, hother]
  | positional rest h => rw [readFrom, ofBytes_encode (.positional h)]
  | brief s rest hhyphen hh => rw [readFrom, ofBytes_encode (.brief s hhyphen hh)]
  | behindStop arg rest =>
    rw [readFrom, ofBytes_encode .stop]
    rfl
  | unknown rest hbody h => exact readFrom_of_not_allows hbody fun hallows => h (allows_iff.mp hallows).1
  | repeated rest hbody h => exact readFrom_of_not_allows hbody fun hallows => (allows_iff.mp hallows).2 h
  | @noValue name rest hbody h =>
    cases rest with
    | nil => exact readFrom_end hbody
    | cons arg rest =>
      rw [readFrom_alone hbody]
      cases htext : Tree.decode? arg with
      | none => rfl
      | some s =>
        obtain ⟨c, t, rfl⟩ := h s rest (by rw [Tree.decode?_eq_some.mp htext])
        exact if_neg fun hboth => Bool.false_ne_true hboth.2

end Request

namespace Update

variable {pairs : List (Text × Text)} {args : List ByteArray}

theorem settableFields_flags : ∀ field ∈ settableFields, Body field none field := by
  intro field hfield
  have hall : ∀ field ∈ settableFields, '=' ∉ field ∧ field ≠ [] ∧ field ≠ "help".toList := by decide
  obtain ⟨hname, hne, hhelp⟩ := hall field hfield
  exact .alone hname hne hhelp

theorem read_spelled (hadmissible : Request.Admissible settableFields pairs) (h : Spelled pairs args) :
    Request.read settableFields args = .flags pairs.reverse := by
  have hread : Request.readFrom settableFields [] (args ++ []) = .flags (pairs.reverse ++ []) :=
    Request.readFrom_spelled settableFields_flags h
      (by simpa using hadmissible.perm (List.reverse_perm pairs).symm)
  rwa [List.append_nil, List.append_nil] at hread

/-- Known flags, each of them once, and what stands behind them. -/
def Behind (rests : List (Text × Text) → List ByteArray → Prop) (args : List ByteArray) : Prop :=
  ∃ pairs front rest, args = front ++ rest ∧ Spelled pairs front ∧
    Request.Admissible settableFields pairs ∧ rests pairs rest

def Ended (rest : List ByteArray) : Prop := rest = [] ∨ rest = [Tree.encode "--".toList]

def Complete : List ByteArray → Prop := Behind fun _ rest => Ended rest

def Helped : List ByteArray → Prop := Behind fun _ rest => AsksHelp rest

/-- Behind the flags stands an argument that cannot be used. -/
def Faulty : List ByteArray → Prop :=
  Behind fun pairs rest => Offence settableFields (pairs.map Prod.fst) rest

inductive Asks (args : List ByteArray) : Request → Prop
  | flags {values : List (Text × Text)}
      (h : Behind (fun pairs rest => Ended rest ∧ values.Perm pairs) args) : Asks args (.flags values)
  | help (h : Helped args) : Asks args .help
  | misuse (h : Faulty args) : Asks args .misuse

theorem asks_read (args : List ByteArray) : Asks args (Request.read settableFields args) := by
  obtain ⟨pairs, front, rest, hsplit, hspelled, hadmissible, hdecision⟩ :
      Request.ReadsAs settableFields [] args (Request.read settableFields args) :=
    Request.readsAs_readFrom Request.admissible_nil
  rw [List.append_nil] at hadmissible hdecision
  have hperm := List.reverse_perm pairs
  replace hadmissible := hadmissible.perm hperm
  generalize Request.read settableFields args = request at hdecision
  cases hdecision with
  | done => exact .flags ⟨pairs, front, [], hsplit, hspelled, hadmissible, Or.inl rfl, hperm⟩
  | stopped => exact .flags ⟨pairs, front, _, hsplit, hspelled, hadmissible, Or.inr rfl, hperm⟩
  | help h => exact .help ⟨pairs, front, rest, hsplit, hspelled, hadmissible, h⟩
  | misuse h => exact .misuse ⟨pairs, front, rest, hsplit, hspelled, hadmissible, h.mono (by simp)⟩

theorem complete_or_helped_or_faulty (args : List ByteArray) : Complete args ∨ Helped args ∨ Faulty args := by
  have hasks := asks_read args
  generalize Request.read settableFields args = request at hasks
  cases hasks with
  | flags h =>
    obtain ⟨pairs, front, rest, hsplit, hspelled, hadmissible, hended, -⟩ := h
    exact Or.inl ⟨pairs, front, rest, hsplit, hspelled, hadmissible, hended⟩
  | help h => exact Or.inr (Or.inl h)
  | misuse h => exact Or.inr (Or.inr h)

theorem faulty_of_read (h : Request.read settableFields args = .misuse) : Faulty args := by
  have hasks := asks_read args
  rw [h] at hasks
  cases hasks with
  | misuse hfaulty => exact hfaulty

theorem read_of_faulty (h : Faulty args) : Request.read settableFields args = .misuse := by
  obtain ⟨pairs, front, rest, rfl, hspelled, hadmissible, hoffence⟩ := h
  have hreversed := hadmissible.perm (List.reverse_perm pairs).symm
  rw [Request.read, Request.readFrom_spelled settableFields_flags hspelled (by simpa using hreversed)]
  exact Request.readFrom_of_offence (hoffence.mono (by simp))

end Update

end Command

end DeploymentRecords
