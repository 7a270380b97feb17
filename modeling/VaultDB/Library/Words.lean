import VaultDB.Library.Text

/-! # Words of a text

The words of a text are its maximal pieces without blanks (`Tokens`,
`words_eq_iff`). Joined by single spaces they make the text again exactly when
nothing but single spaces stood between them (`Spaced`,
`intercalate_words_eq_self_iff`), and two texts make the same one exactly when
they have the same words (`intercalate_words_inj`).
-/

namespace Text

/-- Bytes that are no blanks, one at least. -/
structure IsWord (word : Bytes) : Prop where
  ne_nil : word ≠ []
  not_isSpace : ∀ b ∈ word, ¬ isSpace b

theorem isWord_of_all {word : Bytes} (hne : word ≠ [])
    (h : word.all (fun b => ! isSpace b) = true) : IsWord word := by
  refine ⟨hne, ?_⟩
  intro b hb
  simpa using List.all_eq_true.mp h b hb

/-- The text is the words in their order, with blanks between them, and perhaps
in front and behind. -/
inductive Tokens : Bytes → List Bytes → Prop where
  | nil {blanks : Bytes} (hblanks : ∀ b ∈ blanks, isSpace b) : Tokens blanks []
  | cons {blanks word rest : Bytes} {ws : List Bytes} (hblanks : ∀ b ∈ blanks, isSpace b)
      (hword : IsWord word) (hend : ∀ b, rest.head? = some b → isSpace b)
      (hrest : Tokens rest ws) : Tokens (blanks ++ (word ++ rest)) (word :: ws)

/-- Bytes that are no blanks with single spaces between them: nothing in front,
nothing behind, no two blanks in a row and no other blank than the space. -/
inductive Spaced : Bytes → Prop where
  | single {b : UInt8} (hb : ¬ isSpace b) : Spaced [b]
  | cons {b : UInt8} {s : Bytes} (hb : ¬ isSpace b) (hs : Spaced s) : Spaced (b :: s)
  | space {b : UInt8} {s : Bytes} (hb : ¬ isSpace b) (hs : Spaced s) : Spaced (b :: 32 :: s)

/-! ## Extraction -/

theorem wordsFrom_append {x : Bytes} (hx : ∀ b ∈ x, ¬ isSpace b) (word s : Bytes) :
    wordsFrom word (x ++ s) = wordsFrom (word ++ x) s := by
  induction x generalizing word with
  | nil => rw [List.nil_append, List.append_nil]
  | cons b x ih =>
      have hb := hx b List.mem_cons_self
      rw [List.cons_append, wordsFrom, if_neg hb,
        ih (fun c hc => hx c (List.mem_cons_of_mem _ hc)), List.append_assoc,
        List.singleton_append]

@[simp] theorem words_nil : words [] = [] := rfl

/-- A blank in front is skipped. -/
theorem words_blank {b : UInt8} (hb : isSpace b) (s : Bytes) : words (b :: s) = words s := by
  unfold words
  rw [wordsFrom, if_pos hb]
  rfl

/-- A blank, or the end of the text, ends a word. -/
theorem wordsFrom_end {word rest : Bytes} (hword : word ≠ [])
    (hend : ∀ b, rest.head? = some b → isSpace b) :
    wordsFrom word rest = word :: words rest := by
  have hne : ¬ word.isEmpty := by
    rw [List.isEmpty_iff]
    exact hword
  cases rest with
  | nil => rw [wordsFrom, if_neg hne, words_nil]
  | cons b rest =>
      have hb := hend b rfl
      rw [wordsFrom, if_pos hb, if_neg hne, words_blank hb]
      rfl

theorem words_blanks {blanks : Bytes} (hblanks : ∀ b ∈ blanks, isSpace b) (s : Bytes) :
    words (blanks ++ s) = words s := by
  induction blanks with
  | nil => rfl
  | cons b blanks ih =>
      rw [List.cons_append, words_blank (hblanks b List.mem_cons_self)]
      exact ih fun c hc => hblanks c (List.mem_cons_of_mem _ hc)

/-- A word, and then the words behind it. -/
theorem words_cons {word rest : Bytes} (hword : IsWord word)
    (hend : ∀ b, rest.head? = some b → isSpace b) :
    words (word ++ rest) = word :: words rest := by
  rw [words, wordsFrom_append hword.not_isSpace, List.nil_append]
  exact wordsFrom_end hword.ne_nil hend

theorem Tokens.words_eq {s : Bytes} {ws : List Bytes} (h : Tokens s ws) : words s = ws := by
  induction h with
  | nil hblanks =>
      have hwords := words_blanks hblanks []
      rw [List.append_nil] at hwords
      exact hwords
  | cons hblanks hword hend hrest ih => rw [words_blanks hblanks, words_cons hword hend, ih]

theorem Tokens.blank {b : UInt8} (hb : isSpace b) {s : Bytes} {ws : List Bytes}
    (h : Tokens s ws) : Tokens (b :: s) ws := by
  have hall : ∀ {blanks : Bytes}, (∀ c ∈ blanks, isSpace c) → ∀ c ∈ b :: blanks, isSpace c := by
    intro blanks hblanks c hc
    rcases List.mem_cons.mp hc with rfl | hc
    · exact hb
    · exact hblanks c hc
  cases h with
  | nil hblanks => exact Tokens.nil (hall hblanks)
  | cons hblanks hword hend hrest => exact Tokens.cons (hall hblanks) hword hend hrest

theorem tokens_wordsFrom {word : Bytes} (hword : ∀ b ∈ word, ¬ isSpace b) (s : Bytes) :
    Tokens (word ++ s) (wordsFrom word s) := by
  have hnil : ∀ b ∈ ([] : Bytes), ¬ isSpace b := by simp
  have hnone : ∀ b ∈ ([] : Bytes), isSpace b := by simp
  induction s generalizing word with
  | nil =>
      cases word with
      | nil => exact Tokens.nil hnone
      | cons b word =>
          exact Tokens.cons hnone ⟨List.cons_ne_nil b word, hword⟩ nofun (Tokens.nil hnone)
  | cons c s ih =>
      by_cases hc : isSpace c
      · have hrest : Tokens (c :: s) (words s) := (ih hnil).blank hc
        have hend : ∀ d, (c :: s).head? = some d → isSpace d := by
          rintro d ⟨rfl⟩
          exact hc
        cases word with
        | nil =>
            show Tokens (c :: s) (words (c :: s))
            rw [words_blank hc]
            exact hrest
        | cons b word =>
            -- the blank ends the word
            rw [wordsFrom_end (List.cons_ne_nil b word) hend, words_blank hc]
            exact Tokens.cons hnone ⟨List.cons_ne_nil b word, hword⟩ hend hrest
      · rw [wordsFrom, if_neg hc, List.append_cons]
        apply ih
        intro b hb
        rcases List.mem_append.mp hb with hb | hb
        · exact hword b hb
        · rw [List.mem_singleton.mp hb]
          exact hc

/-- What is extracted from a text are its words. -/
theorem words_eq_iff {s : Bytes} {ws : List Bytes} : words s = ws ↔ Tokens s ws := by
  constructor
  · rintro rfl
    exact @tokens_wordsFrom [] (by simp) s
  · exact Tokens.words_eq

theorem Tokens.isWord {s : Bytes} {ws : List Bytes} (h : Tokens s ws) : ∀ w ∈ ws, IsWord w := by
  induction h with
  | nil hblanks => simp
  | cons hblanks hword hend hrest ih =>
      intro w hw
      rcases List.mem_cons.mp hw with rfl | hw
      · exact hword
      · exact ih w hw

/-- A text with anything but blanks has a word. -/
theorem words_ne_nil {s : Bytes} (h : ∃ b ∈ s, ¬ isSpace b) : words s ≠ [] := by
  intro hnil
  rcases h with ⟨b, hb, hspace⟩
  cases words_eq_iff.mp hnil with
  | nil hblanks => exact hspace (hblanks b hb)

/-! ## Joined by single spaces -/

theorem intercalate_cons {w : Bytes} {ws : List Bytes} (h : ws ≠ []) :
    [32].intercalate (w :: ws) = w ++ 32 :: [32].intercalate ws := by
  cases ws with
  | nil => exact absurd rfl h
  | cons w' ws => simp [List.intercalate]

/-- The words of words joined by spaces are these. -/
theorem words_intercalate {ws : List Bytes} (h : ∀ w ∈ ws, IsWord w) :
    words ([32].intercalate ws) = ws := by
  induction ws with
  | nil => rfl
  | cons w ws ih =>
      have hw := h w List.mem_cons_self
      have hws := ih fun w' hw' => h w' (List.mem_cons_of_mem _ hw')
      cases ws with
      | nil =>
          have hwords := @words_cons w [] hw nofun
          rw [List.append_nil] at hwords
          simpa [List.intercalate] using hwords
      | cons w' ws =>
          have hend : ∀ (b : UInt8) (s : Bytes), (32 :: s).head? = some b → isSpace b := by
            rintro b s ⟨rfl⟩
            decide
          rw [intercalate_cons (List.cons_ne_nil w' ws), words_cons hw (fun b => hend b _),
            words_blank (by decide), hws]

theorem length_intercalate_cons_le (w : Bytes) (ws : List Bytes) :
    ([32].intercalate (w :: ws)).length ≤ w.length + 1 + ([32].intercalate ws).length := by
  by_cases hnil : ws = []
  · rw [hnil]
    simp [List.intercalate]
  · rw [intercalate_cons hnil, List.length_append, List.length_cons]
    omega

theorem length_intercalate_wordsFrom_le (word s : Bytes) :
    ([32].intercalate (wordsFrom word s)).length ≤ word.length + s.length := by
  induction s generalizing word with
  | nil =>
      unfold wordsFrom
      split_ifs
      · exact Nat.zero_le _
      · simp [List.intercalate]
  | cons c s ih =>
      have hrest := ih []
      rw [List.length_nil] at hrest
      have hword := length_intercalate_cons_le word (wordsFrom [] s)
      have hlonger := ih (word ++ [c])
      rw [List.length_append, List.length_singleton] at hlonger
      rw [wordsFrom, List.length_cons]
      split_ifs <;> omega

/-- Joining the words of a text makes it no longer. -/
theorem length_intercalate_words_le (s : Bytes) :
    ([32].intercalate (words s)).length ≤ s.length := by
  have hle := length_intercalate_wordsFrom_le [] s
  rw [List.length_nil, Nat.zero_add] at hle
  exact hle

theorem Spaced.ne_nil {s : Bytes} (h : Spaced s) : s ≠ [] := by
  cases h <;> exact List.cons_ne_nil _ _

/-- Splitting and joining gives a spaced text back. -/
theorem Spaced.intercalate_wordsFrom {s : Bytes} (h : Spaced s) (word : Bytes) :
    [32].intercalate (wordsFrom word s) = word ++ s := by
  induction h generalizing word with
  | single hb =>
      rw [wordsFrom, if_neg hb, @wordsFrom_end _ [] (by simp) nofun]
      simp [List.intercalate]
  | cons hb hs ih => rw [wordsFrom, if_neg hb, ih, List.append_assoc, List.singleton_append]
  | @space b s hb hs ih =>
      have hrest := ih []
      have hne : words s ≠ [] := by
        intro hnil
        unfold words at hnil
        rw [hnil] at hrest
        exact hs.ne_nil hrest.symm
      have hend : ∀ c, (32 :: s).head? = some c → isSpace c := by
        rintro c ⟨rfl⟩
        decide
      rw [wordsFrom, if_neg hb, wordsFrom_end (by simp) hend, words_blank (by decide),
        intercalate_cons hne]
      unfold words
      rw [hrest, List.append_assoc, List.singleton_append, List.nil_append]

theorem IsWord.spaced {w : Bytes} (h : IsWord w) : Spaced w := by
  rcases h with ⟨hne, hw⟩
  induction w with
  | nil => exact absurd rfl hne
  | cons b w ih =>
      have hb := hw b List.mem_cons_self
      by_cases hnil : w = []
      · rw [hnil]
        exact Spaced.single hb
      · exact Spaced.cons hb (ih hnil fun c hc => hw c (List.mem_cons_of_mem _ hc))

theorem IsWord.spaced_append {w s : Bytes} (h : IsWord w) (hs : Spaced s) :
    Spaced (w ++ 32 :: s) := by
  rcases h with ⟨hne, hw⟩
  induction w with
  | nil => exact absurd rfl hne
  | cons b w ih =>
      have hb := hw b List.mem_cons_self
      by_cases hnil : w = []
      · rw [hnil]
        exact Spaced.space hb hs
      · exact Spaced.cons hb (ih hnil fun c hc => hw c (List.mem_cons_of_mem _ hc))

theorem spaced_intercalate {ws : List Bytes} (h : ∀ w ∈ ws, IsWord w) (hne : ws ≠ []) :
    Spaced ([32].intercalate ws) := by
  induction ws with
  | nil => exact absurd rfl hne
  | cons w ws ih =>
      have hw := h w List.mem_cons_self
      by_cases hnil : ws = []
      · rw [hnil]
        have hspaced := hw.spaced
        simpa [List.intercalate] using hspaced
      · rw [intercalate_cons hnil]
        exact hw.spaced_append (ih (fun w' hw' => h w' (List.mem_cons_of_mem _ hw')) hnil)

/-- Split at its blanks and joined by single spaces, a text with a word comes
out as it was exactly when it is spaced. -/
theorem intercalate_words_eq_self_iff {s : Bytes} (h : ∃ b ∈ s, ¬ isSpace b) :
    [32].intercalate (words s) = s ↔ Spaced s := by
  constructor
  · intro heq
    rw [← heq]
    exact spaced_intercalate (words_eq_iff.mp rfl).isWord (words_ne_nil h)
  · exact fun hspaced => hspaced.intercalate_wordsFrom []

/-- Two texts come out as the same one exactly when they have the same words. -/
theorem intercalate_words_inj {s s' : Bytes} :
    [32].intercalate (words s) = [32].intercalate (words s') ↔
      ∃ ws, Tokens s ws ∧ Tokens s' ws := by
  have htokens : ∀ t, Tokens t (words t) := fun t => words_eq_iff.mp rfl
  constructor
  · intro heq
    have hwords := congrArg words heq
    rw [words_intercalate (htokens s).isWord, words_intercalate (htokens s').isWord] at hwords
    exact ⟨words s, htokens s, hwords ▸ htokens s'⟩
  · rintro ⟨ws, h, h'⟩
    rw [h.words_eq, h'.words_eq]

end Text
