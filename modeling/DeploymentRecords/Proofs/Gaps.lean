import DeploymentRecords.Proofs.KeyReading
import DeploymentRecords.Toml.Statement

/-! # Gaps

What may stand between the parts of a document without meaning anything: blanks, line breaks and
remarks. A tidy text has gaps where the text had them, so readers that pass over them end at the
same place. -/

namespace DeploymentRecords.Toml

open Text

def IsNewline (n : Text) : Prop := n = ['\n'] ∨ n = ['\r', '\n']

inductive Gap : Text → Prop
  | nil : Gap []
  | space {c : Char} {s : Text} : isSpace c = true → Gap s → Gap (c :: s)
  | line {n s : Text} : IsNewline n → Gap s → Gap (n ++ s)
  | remark {w n s : Text} : (∀ c ∈ w, isPrintable c = true) → IsNewline n → Gap s →
      Gap ('#' :: (w ++ (n ++ s)))

theorem Spaces.gap {s : Text} (hs : Spaces s) : Gap s := by
  induction s with
  | nil => exact .nil
  | cons c s ih => exact .space (hs c List.mem_cons_self) (ih fun d hd => hs d (List.mem_cons_of_mem c hd))

theorem Gap.append {s t : Text} (hs : Gap s) (ht : Gap t) : Gap (s ++ t) := by
  induction hs with
  | nil => exact ht
  | space hc _ ih => exact .space hc ih
  | line hn _ ih => rw [List.append_assoc]; exact .line hn ih
  | remark hw hn _ ih =>
    simp only [List.cons_append, List.append_assoc]
    exact .remark hw hn ih

theorem newline_not_mem_printable {w : Text} (hw : ∀ c ∈ w, isPrintable c = true) : '\n' ∉ w :=
  fun hm => newline_not_isPrintable (hw _ hm) rfl

theorem afterComment_newline {w n : Text} (hw : ∀ c ∈ w, isPrintable c = true) (hn : IsNewline n)
    (s : Text) : afterComment (w ++ (n ++ s)) = afterGap s := by
  induction w with
  | nil =>
    rcases hn with rfl | rfl
    · exact afterComment.eq_2 s
    · exact afterComment.eq_3 s
  | cons c w ih =>
    have hc := hw c List.mem_cons_self
    rw [List.cons_append, afterComment.eq_4 c _ (newline_not_isPrintable hc)
      (fun _ e _ => ne_return_of_isPrintable hc e), if_pos hc,
      ih fun d hd => hw d (List.mem_cons_of_mem c hd)]

theorem afterComment_printable {w : Text} (hw : ∀ c ∈ w, isPrintable c = true) : afterComment w = [] := by
  induction w with
  | nil => exact afterComment.eq_1
  | cons c w ih =>
    have hc := hw c List.mem_cons_self
    rw [afterComment.eq_4 c _ (newline_not_isPrintable hc)
      (fun _ e _ => ne_return_of_isPrintable hc e), if_pos hc,
      ih fun d hd => hw d (List.mem_cons_of_mem c hd)]

theorem Gap.afterGap_append {g : Text} (hg : Gap g) (s : Text) : afterGap (g ++ s) = afterGap s := by
  induction hg with
  | nil => rfl
  | @space c g hc _ ih =>
    rw [← ih, List.cons_append]
    have : c = ' ' ∨ c = '\t' := by simpa [isSpace] using hc
    rcases this with rfl | rfl
    · exact afterGap.eq_1 _
    · exact afterGap.eq_2 _
  | @line n g hn _ ih =>
    rw [← ih, List.append_assoc]
    rcases hn with rfl | rfl
    · exact afterGap.eq_3 _
    · exact afterGap.eq_4 _
  | @remark w n g hw hn _ ih =>
    rw [← ih, List.cons_append, List.append_assoc, List.append_assoc, afterGap.eq_5,
      afterComment_newline hw hn]

/-- What begins behind a gap begins neither with white space nor with a remark. -/
def IsToken (c : Char) : Prop := isBlank c = false ∧ c ≠ '#'

theorem IsToken.ne {c : Char} (h : IsToken c) : c ≠ ' ' ∧ c ≠ '\t' ∧ c ≠ '\n' ∧ c ≠ '\r' := by
  refine ⟨?_, ?_, ?_, ?_⟩ <;> rintro rfl <;> exact absurd h.1 (by decide)

theorem afterGap_token {c : Char} (hc : IsToken c) (s : Text) : afterGap (c :: s) = c :: s := by
  obtain ⟨h1, h2, h3, h4⟩ := hc.ne
  exact afterGap.eq_6 _ (fun _ e => h1 (List.cons.inj e).1) (fun _ e => h2 (List.cons.inj e).1)
    (fun _ e => h3 (List.cons.inj e).1) (fun _ e => h4 (List.cons.inj e).1)
    fun _ e => hc.2 (List.cons.inj e).1

theorem afterComment_cases (s : Text) :
    (∃ w n u, (∀ c ∈ w, isPrintable c = true) ∧ IsNewline n ∧ s = w ++ (n ++ u) ∧
      afterComment s = afterGap u) ∨
    ∃ w, (∀ c ∈ w, isPrintable c = true) ∧ s = w ++ afterComment s ∧
      Stops isPrintable (afterComment s) := by
  induction s with
  | nil => exact Or.inr ⟨[], by simp, by simp [afterComment], by simp [afterComment]⟩
  | cons c s ih =>
    by_cases hnewline : c = '\n'
    · subst hnewline
      exact Or.inl ⟨[], ['\n'], s, by simp, Or.inl rfl, rfl, afterComment.eq_2 s⟩
    · by_cases hreturn : c = '\r' ∧ ∃ u, s = '\n' :: u
      · obtain ⟨rfl, u, rfl⟩ := hreturn
        exact Or.inl ⟨[], ['\r', '\n'], u, by simp, Or.inr rfl, rfl, afterComment.eq_3 u⟩
      · rw [afterComment.eq_4 c s hnewline fun u hc hu => hreturn ⟨hc, u, hu⟩]
        by_cases hc : isPrintable c = true
        · rw [if_pos hc]
          rcases ih with ⟨w, n, u, hw, hn, rfl, hafter⟩ | ⟨w, hw, hs, hstops⟩
          · refine Or.inl ⟨c :: w, n, u, ?_, hn, rfl, hafter⟩
            rw [List.forall_mem_cons]
            exact ⟨hc, hw⟩
          · refine Or.inr ⟨c :: w, ?_, by rw [List.cons_append, ← hs], hstops⟩
            rw [List.forall_mem_cons]
            exact ⟨hc, hw⟩
        · rw [if_neg hc]
          exact Or.inr ⟨[], by simp, rfl, by simpa using hc⟩

/-- What `afterGap` passes over is a gap, or one with a remark that nothing ends. -/
theorem afterGap_cases (s : Text) : (∃ g, Gap g ∧ s = g ++ afterGap s) ∨
    ∃ g w, Gap g ∧ (∀ c ∈ w, isPrintable c = true) ∧ s = g ++ '#' :: (w ++ afterGap s) ∧
      Stops isPrintable (afterGap s) := by
  have hprepend : ∀ {u t : Text}, Gap u → afterGap (u ++ t) = afterGap t →
      ((∃ g, Gap g ∧ t = g ++ afterGap t) ∨
        ∃ g w, Gap g ∧ (∀ c ∈ w, isPrintable c = true) ∧ t = g ++ '#' :: (w ++ afterGap t) ∧
          Stops isPrintable (afterGap t)) →
      (∃ g, Gap g ∧ u ++ t = g ++ afterGap (u ++ t)) ∨
        ∃ g w, Gap g ∧ (∀ c ∈ w, isPrintable c = true) ∧
          u ++ t = g ++ '#' :: (w ++ afterGap (u ++ t)) ∧ Stops isPrintable (afterGap (u ++ t)) := by
    rintro u t hu he (⟨g, hg, ht⟩ | ⟨g, w, hg, hw, ht, hstops⟩)
    · exact Or.inl ⟨u ++ g, hu.append hg, by rw [he, List.append_assoc, ← ht]⟩
    · exact Or.inr ⟨u ++ g, w, hu.append hg, hw, by rw [he, List.append_assoc, ← ht], he ▸ hstops⟩
  fun_cases afterGap s with
  | case1 s => exact hprepend (u := [' ']) (.space (by decide) .nil) (afterGap.eq_1 s) (afterGap_cases s)
  | case2 s => exact hprepend (u := ['\t']) (.space (by decide) .nil) (afterGap.eq_2 s) (afterGap_cases s)
  | case3 s => exact hprepend (u := ['\n']) (.line (Or.inl rfl) .nil) (afterGap.eq_3 s) (afterGap_cases s)
  | case4 s =>
    exact hprepend (u := ['\r', '\n']) (.line (Or.inr rfl) .nil) (afterGap.eq_4 s) (afterGap_cases s)
  | case5 s =>
    rcases afterComment_cases s with ⟨w, n, u, hw, hn, rfl, hafter⟩ | ⟨w, hw, hs, hstops⟩
    · have hshort : u.length < ('#' :: (w ++ (n ++ u))).length := by
        simp only [List.length_cons, List.length_append]
        omega
      have htext : '#' :: (w ++ (n ++ u)) = '#' :: (w ++ (n ++ [])) ++ u := by simp
      rw [← afterGap.eq_5, htext]
      refine hprepend (.remark hw hn .nil) ?_ (afterGap_cases u)
      rw [← htext, afterGap.eq_5, hafter]
    · exact Or.inr ⟨[], w, .nil, hw, by rw [List.nil_append, ← hs], hstops⟩
  | case6 => exact Or.inl ⟨[], .nil, rfl⟩
termination_by s.length

theorem taken_afterGap (s : Text) : taken s (afterGap s) ++ afterGap s = s := by
  rcases afterGap_cases s with ⟨g, -, hs⟩ | ⟨g, w, -, -, hs, -⟩
  · rw [Key.taken_eq hs, ← hs]
  · have hs' : s = (g ++ '#' :: w) ++ afterGap s := by simpa using hs
    rw [Key.taken_eq hs', ← hs']

/-- In front of a printable character a gap is complete. -/
theorem gap_of_afterGap {s t : Text} {c : Char} (h : afterGap s = c :: t)
    (hc : isPrintable c = true) : ∃ g, Gap g ∧ s = g ++ c :: t := by
  rcases afterGap_cases s with ⟨g, hg, hs⟩ | ⟨-, -, -, -, -, hstops⟩
  · exact ⟨g, hg, by rw [← h, ← hs]⟩
  · rw [h, stops_cons, hc] at hstops
    cases hstops

/-- Stripping shortens the lines of a text. -/
theorem strip_line {w n : Text} (hw : '\n' ∉ w) (hn : IsNewline n) (s : Text) :
    ∃ v, v <+: w ∧ strip (w ++ (n ++ s)) = v ++ '\n' :: strip s := by
  induction w with
  | nil => exact ⟨[], List.nil_prefix, strip_spaces_newline (b := []) (by simp) hn s⟩
  | cons c w ih =>
    obtain ⟨v, hv, hstrip⟩ := ih fun hm => hw (List.mem_cons_of_mem c hm)
    rw [List.cons_append]
    rcases strip_cons_cases c (w ++ (n ++ s)) with hkeep | ⟨-, -, hdrop, hhead⟩
    · exact ⟨c :: v, List.prefix_cons_inj c |>.mpr hv, by rw [hkeep, hstrip, List.cons_append]⟩
    · -- a character that goes leaves nothing of the line behind it
      refine ⟨[], List.nil_prefix, ?_⟩
      rw [hdrop, hstrip]
      cases v with
      | nil => rfl
      | cons d v =>
        rw [hstrip] at hhead
        have hd : d = '\n' := hhead
        exact absurd (List.mem_cons_of_mem c (hv.subset (by simp [hd]))) hw

theorem Gap.afterGap_strip {g : Text} (hg : Gap g) (s : Text) :
    afterGap (strip (g ++ s)) = afterGap (strip s) := by
  induction hg with
  | nil => rfl
  | @space c g hc _ ih =>
    rw [← ih, List.cons_append]
    rcases strip_cons_cases c (g ++ s) with h | ⟨-, -, h, -⟩
    · rw [h]
      have : c = ' ' ∨ c = '\t' := by simpa [isSpace] using hc
      rcases this with rfl | rfl
      · exact afterGap.eq_1 _
      · exact afterGap.eq_2 _
    · rw [h]
  | @line n g hn _ ih =>
    have := strip_spaces_newline (b := []) (by simp) hn (g ++ s)
    rw [← ih, List.append_assoc, ← List.nil_append (n ++ (g ++ s)), this]
    exact afterGap.eq_3 _
  | @remark w n g hw hn _ ih =>
    obtain ⟨v, hv, hstrip⟩ := strip_line (newline_not_mem_printable hw) hn (g ++ s)
    rw [← ih, List.cons_append, List.append_assoc, List.append_assoc,
      strip_cons (Or.inl (by decide)), hstrip, afterGap.eq_5,
      ← List.singleton_append, afterComment_newline (fun c hc => hw c (hv.subset hc)) (Or.inl rfl)]

theorem Gap.afterGap_token {g : Text} (hg : Gap g) {c : Char} (hc : IsToken c) (s : Text) :
    afterGap (strip (g ++ c :: s)) = c :: strip s := by
  rw [hg.afterGap_strip, strip_cons (Or.inl hc.1), Toml.afterGap_token hc]

theorem Gap.stops_cons {g : Text} (hg : Gap g) {p : Char → Bool}
    (hp : [' ', '\t', '\n', '\r', '#'].any p = false) {c : Char} (hc : p c = false) (s : Text) :
    Stops p (g ++ c :: s) := by
  simp only [List.any_cons, List.any_nil, Bool.or_false, Bool.or_eq_false_iff] at hp
  obtain ⟨hspace, htab, hnewline, hreturn, hmark⟩ := hp
  cases hg with
  | nil => simpa using hc
  | @space d g hd _ =>
    have : d = ' ' ∨ d = '\t' := by simpa [isSpace] using hd
    rcases this with rfl | rfl
    · simpa using hspace
    · simpa using htab
  | line hn _ =>
    rcases hn with rfl | rfl
    · simpa using hnewline
    · simpa using hreturn
  | remark => simpa using hmark

theorem Spaces.dropWhile_strip {b : Text} (hb : Spaces b) (s : Text) :
    (strip (b ++ s)).dropWhile isSpace = (strip s).dropWhile isSpace := by
  induction b with
  | nil => rfl
  | cons c b ih =>
    have ih := ih fun d hd => hb d (List.mem_cons_of_mem c hd)
    rw [← ih, List.cons_append]
    rcases strip_cons_cases c (b ++ s) with h | ⟨-, -, h, -⟩
    · rw [h, List.dropWhile_cons_of_pos (hb c List.mem_cons_self)]
    · rw [h]

def Trail (t : Text) : Prop :=
  ∃ b w, Spaces b ∧ t = b ++ w ∧ (w = [] ∨ ∃ v, w = '#' :: v ∧ ∀ c ∈ v, isPrintable c = true)

theorem Trail.newline_not_mem {t : Text} (ht : Trail t) : '\n' ∉ t := by
  obtain ⟨b, w, hb, rfl, rfl | ⟨v, rfl, hv⟩⟩ := ht
  · simpa using hb.newline_not_mem
  · simp only [List.mem_append, List.mem_cons, not_or]
    exact ⟨hb.newline_not_mem, by decide, newline_not_mem_printable hv⟩

theorem Trail.of_prefix {t u : Text} (ht : Trail t) (hu : u <+: t) : Trail u := by
  obtain ⟨b, w, hb, rfl, hw⟩ := ht
  obtain ⟨y, hy⟩ := hu
  rcases List.append_eq_append_iff.mp hy with ⟨x, rfl, -⟩ | ⟨x, rfl, hx⟩
  · exact ⟨u, [], fun c hc => hb c (List.mem_append_left x hc), by simp, Or.inl rfl⟩
  · have hx : x <+: w := ⟨y, hx.symm⟩
    refine ⟨b, x, hb, rfl, ?_⟩
    rcases hw with rfl | ⟨v, rfl, hv⟩
    · exact Or.inl (List.prefix_nil.mp hx)
    · cases x with
      | nil => exact Or.inl rfl
      | cons c x =>
        obtain ⟨rfl, htail⟩ := List.cons_prefix_cons.mp hx
        exact Or.inr ⟨x, rfl, fun d hd => hv d (htail.subset hd)⟩

def LineEnd (s next : Text) : Prop := (∃ n, IsNewline n ∧ s = n ++ next) ∨ s = [] ∧ next = []

theorem LineEnd.stops {s next : Text} (h : LineEnd s next) : Stops isPrintable s := by
  rcases h with ⟨n, rfl | rfl, rfl⟩ | ⟨rfl, -⟩
  · exact stops_cons.mpr (by decide)
  · exact stops_cons.mpr (by decide)
  · exact stops_nil

theorem isPrintable_of_isSpace {c : Char} (h : isSpace c = true) : isPrintable c = true := by
  have : c = ' ' ∨ c = '\t' := by simpa [isSpace] using h
  rcases this with rfl | rfl <;> decide

theorem Spaces.trail {b : Text} (hb : Spaces b) : Trail b := ⟨b, [], hb, by simp, Or.inl rfl⟩

namespace Statement

def restOfLine (s : Text) : Text :=
  match s.dropWhile isSpace with
  | '#' :: rest => rest.dropWhile isPrintable
  | rest => rest

theorem readLineEnd?_eq (s : Text) : readLineEnd? s =
    match restOfLine s with
    | [] => some (taken s (restOfLine s), [])
    | _ => (afterNewline? (restOfLine s)).map fun next => (taken s (restOfLine s), next) := rfl

theorem restOfLine_trail {t s : Text} (ht : Trail t) (hs : Stops isPrintable s) :
    restOfLine (t ++ s) = s := by
  obtain ⟨b, w, hb, rfl, rfl | ⟨v, rfl, hv⟩⟩ := ht
  · have hdrop : (b ++ s).dropWhile isSpace = s :=
      dropWhile_run hb fun c hc => Bool.eq_false_iff.mpr fun hspace => by
        have hprint := isPrintable_of_isSpace hspace
        rw [hs c hc] at hprint
        cases hprint
    rw [restOfLine, List.append_nil, hdrop]
    split
    · next r => exact absurd (hs '#' rfl) (by decide)
    · rfl
  · have hdrop : (b ++ '#' :: (v ++ s)).dropWhile isSpace = '#' :: (v ++ s) :=
      dropWhile_run hb (by simp; decide)
    have htext : b ++ '#' :: v ++ s = b ++ '#' :: (v ++ s) := by simp
    rw [htext, restOfLine, hdrop]
    exact dropWhile_run hv hs

theorem exists_trail_restOfLine (s : Text) : ∃ t, Trail t ∧ s = t ++ restOfLine s := by
  have hspaces := spaces_takeWhile s
  have hsplit := List.takeWhile_append_dropWhile (p := isSpace) (l := s)
  unfold restOfLine
  split
  · next rest hrest =>
    refine ⟨s.takeWhile isSpace ++ '#' :: rest.takeWhile isPrintable,
      ⟨_, _, hspaces, rfl, Or.inr ⟨_, rfl, List.all_eq_true.mp List.all_takeWhile⟩⟩, ?_⟩
    rw [List.append_assoc, List.cons_append, List.takeWhile_append_dropWhile, ← hrest, hsplit]
  · exact ⟨s.takeWhile isSpace, hspaces.trail, hsplit.symm⟩

theorem readLineEnd?_trail {t s next : Text} (ht : Trail t) (hs : LineEnd s next) :
    readLineEnd? (t ++ s) = some (t, next) := by
  have hrest := restOfLine_trail ht hs.stops
  rw [readLineEnd?_eq, hrest, taken_append]
  rcases hs with ⟨n, rfl | rfl, rfl⟩ | ⟨rfl, rfl⟩ <;> rfl

theorem readLineEnd?_strip {t : Text} (ht : Trail t) (s : Text) :
    ∃ t', readLineEnd? (strip (t ++ '\n' :: s)) = some (t', strip s) ∧
      strip (t ++ '\n' :: s) = t' ++ '\n' :: strip s := by
  obtain ⟨v, hv, hstrip⟩ := strip_line ht.newline_not_mem (Or.inl rfl : IsNewline ['\n']) s
  rw [List.singleton_append] at hstrip
  refine ⟨v, ?_, hstrip⟩
  rw [hstrip]
  exact readLineEnd?_trail (ht.of_prefix hv) (Or.inl ⟨['\n'], Or.inl rfl, rfl⟩)

theorem trail_of_readLineEnd? {s t next : Text} (h : readLineEnd? s = some (t, next)) :
    Trail t ∧ ∃ n, s = t ++ (n ++ next) := by
  obtain ⟨u, hu, hs⟩ := exists_trail_restOfLine s
  rw [readLineEnd?_eq, Key.taken_eq hs] at h
  split at h
  · next hrest =>
    obtain ⟨rfl, rfl⟩ := Prod.mk.inj (Option.some.inj h)
    exact ⟨hu, [], by rw [hrest] at hs; exact hs⟩
  · obtain ⟨next', hnext, he⟩ := Option.map_eq_some_iff.mp h
    obtain ⟨rfl, rfl⟩ := Prod.mk.inj he
    obtain ⟨n, -, hn⟩ := exists_append_afterNewline? hnext
    exact ⟨hu, n, by rw [← hn, ← hs]⟩

end Statement

end DeploymentRecords.Toml
