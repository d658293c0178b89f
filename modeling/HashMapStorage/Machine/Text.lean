import HashMapStorage.Machine.Buffer

/-!
# Words and numerals

`strtok` takes a string apart in place: each call ends a token with a NUL and
remembers where it stopped. What a sequence of calls finds are the words of the
string. `atoi` reads the numeral a string starts with.
-/

namespace Machine

-- ---------------------------------------------------------------------------
-- The words of a string
-- ---------------------------------------------------------------------------

/-- The maximal runs of bytes that are no delimiters. -/
def words (delim bytes : List UInt8) : List (List UInt8) :=
  (bytes.splitOnP (· ∈ delim)).filter (· ≠ [])

section

variable {delim gap word rest : List UInt8}

theorem words_skip (hg : ∀ b ∈ gap, b ∈ delim) : words delim (gap ++ rest) = words delim rest := by
  induction gap with
  | nil => rfl
  | cons b gap ih =>
    obtain ⟨hb, hg⟩ := List.forall_mem_cons.mp hg
    rw [← ih hg]
    simp [words, List.splitOnP_cons_eq_if_modifyHead, hb]

theorem words_nil : words delim [] = [] := by simp [words]

theorem words_gap (hg : ∀ b ∈ gap, b ∈ delim) : words delim gap = [] := by
  have h : words delim (gap ++ []) = words delim [] := words_skip hg
  rwa [List.append_nil, words_nil] at h

theorem words_one (hw : ∀ b ∈ word, b ∉ delim) (hne : word ≠ []) : words delim word = [word] := by
  rw [words, List.splitOnP_eq_singleton (by simpa using hw)]
  simp [hne]

theorem words_cons (hw : ∀ b ∈ word, b ∉ delim) (hne : word ≠ []) (hd : d ∈ delim) :
    words delim (word ++ d :: rest) = word :: words delim rest := by
  rw [words, List.splitOnP_append_cons_of_forall_mem (by simpa using hw) d (by simpa using hd)]
  simp [words, hne]

end

inductive WordView (delim : List UInt8) : List UInt8 → Prop
  | gap : (∀ b ∈ gap, b ∈ delim) → WordView delim gap
  | last : (∀ b ∈ gap, b ∈ delim) → (∀ b ∈ word, b ∉ delim) → word ≠ [] →
      WordView delim (gap ++ word)
  | more : (∀ b ∈ gap, b ∈ delim) → (∀ b ∈ word, b ∉ delim) → word ≠ [] → d ∈ delim →
      WordView delim (gap ++ (word ++ d :: rest))

theorem head_dropWhile {p : UInt8 → Bool} {bytes : List UInt8}
    (hb : bytes.dropWhile p = b :: rest) : p b = false := by
  have hnot := List.head?_dropWhile_not p bytes
  rw [hb] at hnot
  simpa using hnot

theorem wordView (delim bytes : List UInt8) : WordView delim bytes := by
  have hgap : ∀ b ∈ bytes.takeWhile (· ∈ delim), b ∈ delim := fun b hb => by
    simpa using List.mem_takeWhile_imp hb
  have hsplit : bytes.takeWhile (· ∈ delim) ++ bytes.dropWhile (· ∈ delim) = bytes :=
    List.takeWhile_append_dropWhile
  cases hbehind : bytes.dropWhile (· ∈ delim) with
  | nil =>
    rw [hbehind, List.append_nil] at hsplit
    exact hsplit ▸ .gap hgap
  | cons b behind =>
    have hb : b ∉ delim := by simpa using head_dropWhile hbehind
    have hword : ∀ c ∈ (b :: behind).takeWhile (· ∉ delim), c ∉ delim := fun c hc => by
      simpa using List.mem_takeWhile_imp hc
    have hne : (b :: behind).takeWhile (· ∉ delim) ≠ [] := by simp [hb]
    have hrest : (b :: behind).takeWhile (· ∉ delim) ++ (b :: behind).dropWhile (· ∉ delim) =
        b :: behind := List.takeWhile_append_dropWhile
    rw [← hsplit, hbehind]
    cases hlast : (b :: behind).dropWhile (· ∉ delim) with
    | nil =>
      rw [hlast, List.append_nil] at hrest
      exact hrest ▸ .last hgap hword hne
    | cons d rest =>
      have hd : d ∈ delim := by simpa using head_dropWhile hlast
      rw [← hrest, hlast]
      exact .more hgap hword hne hd

-- ---------------------------------------------------------------------------
-- strtok
-- ---------------------------------------------------------------------------

/-- `strtok` on the block that holds a string, from `save` on: where the token
starts, the block with a NUL behind the token, and where the next search starts. -/
def strtok (delim block : List UInt8) (save : Nat) : Exec (Option Nat × List UInt8 × Nat) := do
  let s ← readStr (block.drop save)
  let start := save + (s.bytes.takeWhile (· ∈ delim)).length
  let token := (s.bytes.dropWhile (· ∈ delim)).takeWhile (· ∉ delim)
  let stop := start + token.length
  if token = [] then pure (none, block, start)
  else if stop = save + s.bytes.length then pure (some start, block, stop)
  else pure (some start, block.set stop 0, stop + 1)

section

variable {delim front gap word rest behind : List UInt8}

theorem skip_gap (hg : ∀ b ∈ gap, b ∈ delim) (hw : ∀ b ∈ word, b ∉ delim) (hne : word ≠ [])
    (rest : List UInt8) :
    (gap ++ (word ++ rest)).takeWhile (· ∈ delim) = gap ∧
      (gap ++ (word ++ rest)).dropWhile (· ∈ delim) = word ++ rest := by
  obtain ⟨b, word, rfl⟩ := List.exists_cons_of_ne_nil hne
  have hb : b ∉ delim := hw b (by simp)
  have hg' : ∀ b ∈ gap, decide (b ∈ delim) = true := by simpa using hg
  rw [List.takeWhile_append_of_pos hg', List.dropWhile_append_of_pos hg']
  simp [hb]

theorem take_word (hw : ∀ b ∈ word, b ∉ delim) :
    word.takeWhile (· ∉ delim) = word := by
  simpa [List.takeWhile_eq_self_iff] using hw

theorem take_word_cons (hw : ∀ b ∈ word, b ∉ delim) (hd : d ∈ delim) :
    (word ++ d :: rest).takeWhile (· ∉ delim) = word := by
  rw [List.takeWhile_append_of_pos (by simpa using hw)]
  simp [hd]

theorem strtok_gap (hg : ∀ b ∈ gap, b ∈ delim) (hz : 0 ∉ gap) :
    strtok delim (front ++ (gap ++ 0 :: behind)) front.length =
      .ok (none, front ++ (gap ++ 0 :: behind), front.length + gap.length) := by
  have hread : readStr ((front ++ (gap ++ 0 :: behind)).drop front.length) = .ok ⟨gap, hz⟩ := by
    rw [List.drop_left]
    exact readStr_append ⟨gap, hz⟩ behind
  have hstart : gap.takeWhile (· ∈ delim) = gap := by
    simpa [List.takeWhile_eq_self_iff] using hg
  have hnone : gap.dropWhile (· ∈ delim) = [] := by
    simpa [List.dropWhile_eq_nil_iff] using hg
  rw [strtok, hread, ok_bind]
  simp only [hstart, hnone, List.takeWhile_nil, ↓reduceIte, pure_eq_ok]

theorem strtok_last (hg : ∀ b ∈ gap, b ∈ delim) (hw : ∀ b ∈ word, b ∉ delim) (hne : word ≠ [])
    (hz : 0 ∉ gap ++ word) :
    strtok delim (front ++ (gap ++ word ++ 0 :: behind)) front.length =
      .ok (some (front.length + gap.length), front ++ (gap ++ word ++ 0 :: behind),
        front.length + gap.length + word.length) := by
  have hread : readStr ((front ++ (gap ++ word ++ 0 :: behind)).drop front.length) =
      .ok ⟨gap ++ word, hz⟩ := by
    rw [List.drop_left]
    exact readStr_append ⟨gap ++ word, hz⟩ behind
  obtain ⟨hstart, hdrop⟩ := skip_gap hg hw hne []
  rw [List.append_nil] at hstart hdrop
  rw [strtok, hread, ok_bind]
  simp only [hstart, hdrop, take_word hw, hne, ↓reduceIte, List.length_append, Nat.add_assoc,
    pure_eq_ok]

theorem strtok_more (hg : ∀ b ∈ gap, b ∈ delim) (hw : ∀ b ∈ word, b ∉ delim) (hne : word ≠ [])
    (hd : d ∈ delim) (hz : 0 ∉ gap ++ (word ++ d :: rest)) :
    strtok delim (front ++ (gap ++ (word ++ d :: rest) ++ 0 :: behind)) front.length =
      .ok (some (front.length + gap.length), front ++ gap ++ word ++ 0 :: (rest ++ 0 :: behind),
        front.length + gap.length + word.length + 1) := by
  have hread : readStr ((front ++ (gap ++ (word ++ d :: rest) ++ 0 :: behind)).drop front.length) =
      .ok ⟨gap ++ (word ++ d :: rest), hz⟩ := by
    rw [List.drop_left]
    exact readStr_append ⟨_, hz⟩ behind
  obtain ⟨hstart, hdrop⟩ := skip_gap hg hw hne (d :: rest)
  have hstop : ¬ front.length + gap.length + word.length =
      front.length + (gap ++ (word ++ d :: rest)).length := by
    simp only [List.length_append, List.length_cons]
    omega
  have hset : (front ++ (gap ++ (word ++ d :: rest) ++ 0 :: behind)).set
      (front.length + gap.length + word.length) 0 =
      front ++ gap ++ word ++ 0 :: (rest ++ 0 :: behind) := by
    have hblock : front ++ (gap ++ (word ++ d :: rest) ++ 0 :: behind) =
        front ++ gap ++ word ++ d :: (rest ++ 0 :: behind) := by simp
    rw [hblock, ← List.length_append, ← List.length_append, List.set_append_right _ _ (by simp)]
    simp
  rw [strtok, hread, ok_bind]
  simp only [hstart, hdrop, take_word_cons hw hd, hne, ↓reduceIte, hstop, hset, pure_eq_ok]

end

section

variable {delim block : List UInt8} {save : Nat} {s : CStr}

theorem block_split (hs : readStr (block.drop save) = .ok s) :
    ∃ front behind, block = front ++ (s.bytes ++ 0 :: behind) ∧ front.length = save := by
  obtain ⟨behind, hdrop⟩ := readStr_ok hs
  refine ⟨block.take save, behind, by rw [← hdrop, List.take_append_drop], ?_⟩
  have hlen := congrArg List.length hdrop
  simp only [List.length_drop, List.length_append, List.length_cons] at hlen
  rw [List.length_take]
  omega

theorem strtok_none (hs : readStr (block.drop save) = .ok s) (hw : words delim s.bytes = []) :
    ∃ save', strtok delim block save = .ok (none, block, save') := by
  obtain ⟨front, behind, rfl, rfl⟩ := block_split hs
  obtain ⟨bytes, hz⟩ := s
  cases wordView delim bytes with
  | gap hg => exact ⟨_, strtok_gap hg hz⟩
  | last hg hword hne => simp [words_skip hg, words_one hword hne] at hw
  | more hg hword hne hd => simp [words_skip hg, words_cons hword hne hd] at hw

/-- The token found is the first word; from where the search stopped the other
words are left. -/
theorem strtok_some (hs : readStr (block.drop save) = .ok s) (hw : words delim s.bytes = w :: ws) :
    ∃ start block' save' token left, strtok delim block save = .ok (some start, block', save') ∧
      block'.length = block.length ∧
      readStr (block'.drop start) = .ok token ∧ token.bytes = w ∧
      readStr (block'.drop save') = .ok left ∧ words delim left.bytes = ws := by
  obtain ⟨front, behind, rfl, rfl⟩ := block_split hs
  obtain ⟨bytes, hz⟩ := s
  cases wordView delim bytes with
  | gap hg => simp [words_gap hg] at hw
  | @last gap word hg hword hne =>
    rw [words_skip hg, words_one hword hne] at hw
    cases hw
    have hz' : 0 ∉ w := fun h => hz (List.mem_append_right _ h)
    refine ⟨_, _, _, ⟨w, hz'⟩, .empty, strtok_last hg hword hne hz, rfl, ?_, rfl, ?_, words_nil⟩
    · rw [← List.length_append, List.append_assoc, ← List.append_assoc, List.drop_left]
      exact readStr_append ⟨w, hz'⟩ behind
    · have hblock : front ++ (gap ++ w ++ 0 :: behind) = front ++ gap ++ w ++ 0 :: behind := by simp
      rw [← List.length_append, ← List.length_append, hblock, List.drop_left]
      exact readStr_append .empty behind
  | @more gap word d rest hg hword hne hd =>
    rw [words_skip hg, words_cons hword hne hd] at hw
    cases hw
    have hz' : 0 ∉ w := fun h => hz (by simp [h])
    have hz'' : 0 ∉ rest := fun h => hz (by simp [h])
    refine ⟨_, _, _, ⟨w, hz'⟩, ⟨rest, hz''⟩, strtok_more hg hword hne hd hz, by simp, ?_, rfl, ?_,
      rfl⟩
    · rw [← List.length_append, List.append_assoc, List.drop_left]
      exact readStr_append ⟨w, hz'⟩ _
    · rw [← List.length_append, ← List.length_append, ← List.drop_drop, List.drop_left,
        List.drop_one, List.tail_cons]
      exact readStr_append ⟨rest, hz''⟩ behind

def tokens (delim : List UInt8) (s : CStr) : List CStr := (words delim s.bytes).map .ofBytes

theorem tokens_cons {t : CStr} (ht : tokens delim s = t :: ts) :
    t.bytes ≠ [] ∧ ∀ b ∈ t.bytes, b ∉ delim := by
  obtain ⟨w, ws, hw, rfl, -⟩ := List.map_eq_cons_iff.mp ht
  obtain ⟨bytes, hz⟩ := s
  dsimp only at hw
  cases wordView delim bytes with
  | gap hg => simp [words_gap hg] at hw
  | last hg hword hne =>
    rw [words_skip hg, words_one hword hne] at hw
    obtain ⟨rfl, -⟩ := List.cons.inj hw
    rw [CStr.ofBytes_bytes ⟨_, fun h => hz (List.mem_append_right _ h)⟩]
    exact ⟨hne, hword⟩
  | more hg hword hne hd =>
    rw [words_skip hg, words_cons hword hne hd] at hw
    obtain ⟨rfl, -⟩ := List.cons.inj hw
    rw [CStr.ofBytes_bytes ⟨_, fun h => hz (by simp [h])⟩]
    exact ⟨hne, hword⟩

theorem tokens_pair {s t u : CStr} (hs : s.bytes = t.bytes ++ d :: u.bytes) (hd : d ∈ delim)
    (ht : t.bytes ≠ [] ∧ ∀ b ∈ t.bytes, b ∉ delim) (hu : u.bytes ≠ [] ∧ ∀ b ∈ u.bytes, b ∉ delim) :
    tokens delim s = [t, u] := by
  rw [tokens, hs, words_cons ht.2 ht.1 hd, words_one hu.2 hu.1]
  simp only [List.map_cons, List.map_nil, CStr.ofBytes_bytes]

theorem strtok_tokens_nil (hs : readStr (block.drop save) = .ok s) (ht : tokens delim s = []) :
    ∃ save', strtok delim block save = .ok (none, block, save') :=
  strtok_none hs (List.map_eq_nil_iff.mp ht)

theorem strtok_tokens_cons (hs : readStr (block.drop save) = .ok s)
    (ht : tokens delim s = t :: ts) :
    ∃ start block' save' left, strtok delim block save = .ok (some start, block', save') ∧
      block'.length = block.length ∧ readStr (block'.drop start) = .ok t ∧ t ≠ .empty ∧
      readStr (block'.drop save') = .ok left ∧ tokens delim left = ts := by
  obtain ⟨w, ws, hw, rfl, rfl⟩ := List.map_eq_cons_iff.mp ht
  obtain ⟨start, block', save', token, left, hr, hlen, htoken, rfl, hleft, rfl⟩ := strtok_some hs hw
  rw [CStr.ofBytes_bytes]
  refine ⟨start, block', save', left, hr, hlen, htoken, ?_, hleft, rfl⟩
  rintro rfl
  have hmem : [] ∈ words delim s.bytes := hw ▸ List.mem_cons_self ..
  simp [words] at hmem

theorem strtok_take (h : strtok delim block save = .ok (p, block', save')) :
    block'.take save = block.take save := by
  obtain ⟨s, -, h⟩ := seq_ok h
  dsimp only at h
  split at h
  · cases h
    rfl
  split at h
  · cases h
    rfl
  · cases h
    exact List.take_set_of_le (by omega)

theorem strtok_cuts (hs : readStr block = .ok s) (ht : tokens delim s = t :: u :: ts) :
    ∃ start block' save' left first, strtok delim block 0 = .ok (some start, block', save') ∧
      readStr (block'.drop start) = .ok t ∧ readStr (block'.drop save') = .ok left ∧
      tokens delim left = u :: ts ∧ tokens delim first = [t] ∧ block'.take save' = first.block := by
  obtain ⟨w, ws, hw, rfl, hws⟩ := List.map_eq_cons_iff.mp ht
  obtain ⟨v, vs, rfl, rfl, rfl⟩ := List.map_eq_cons_iff.mp hws
  obtain ⟨behind, rfl⟩ := readStr_ok hs
  obtain ⟨bytes, hz⟩ := s
  dsimp only at hw ⊢
  cases wordView delim bytes with
  | gap hg => simp [words_gap hg] at hw
  | last hg hword hne => simp [words_skip hg, words_one hword hne] at hw
  | @more gap word d rest hg hword hne hd =>
    rw [words_skip hg, words_cons hword hne hd] at hw
    obtain ⟨rfl, hrest⟩ := List.cons.inj hw
    have hz' : 0 ∉ word := fun h => hz (by simp [h])
    have hz'' : 0 ∉ rest := fun h => hz (by simp [h])
    have hfirst : 0 ∉ gap ++ word := fun h => hz (by
      rcases List.mem_append.mp h with h | h <;> simp [h])
    have hcall : strtok delim ([] ++ (gap ++ (word ++ d :: rest) ++ 0 :: behind))
        ([] : List UInt8).length = _ := strtok_more hg hword hne hd hz
    simp only [List.nil_append, List.length_nil, Nat.zero_add] at hcall
    refine ⟨_, _, _, ⟨rest, hz''⟩, ⟨gap ++ word, hfirst⟩, hcall, ?_, ?_, ?_, ?_, ?_⟩
    · rw [List.append_assoc, List.drop_left, CStr.ofBytes_bytes ⟨word, hz'⟩]
      exact readStr_append ⟨word, hz'⟩ _
    · rw [← List.length_append, ← List.drop_drop, List.drop_left, List.drop_one, List.tail_cons]
      exact readStr_append ⟨rest, hz''⟩ behind
    · rw [tokens, hrest]
      rfl
    · rw [tokens, words_skip hg, words_one hword hne]
      rfl
    · rw [List.append_cons]
      exact List.take_left' (by simp [Nat.add_assoc])

end

-- ---------------------------------------------------------------------------
-- strcpy and strcat
-- ---------------------------------------------------------------------------

def strcpy (buffer : List UInt8) (s : CStr) : Exec (List UInt8) :=
  memcpy buffer s.block s.block.length

def strcat (buffer : List UInt8) (s : CStr) : Exec (List UInt8) := do
  let front ← readStr buffer
  writeAt buffer front.bytes.length s.block

def CStr.append (s t : CStr) : CStr :=
  ⟨s.bytes ++ t.bytes, fun h => (List.mem_append.mp h).elim s.nulFree t.nulFree⟩

theorem readStr_block_append (s : CStr) (rest : List UInt8) :
    readStr (s.block ++ rest) = .ok s := by
  rw [CStr.block, List.append_assoc]
  exact readStr_append s rest

section

variable {buffer : List UInt8} {s t : CStr}

theorem strcpy_ok (h : s.bytes.length < buffer.length) :
    strcpy buffer s = .ok (s.block ++ buffer.drop s.block.length) := by
  rw [strcpy, memcpy_ok (by rwa [CStr.block_length]) (Nat.le_refl _), List.take_length]

theorem strcpy_room (h : Defined (strcpy buffer s)) : s.bytes.length < buffer.length := by
  by_contra hnot
  obtain ⟨copied, h⟩ := h
  rw [strcpy, memcpy_error (by rw [CStr.block_length]; omega)] at h
  cases h

theorem strcpy_reads (h : s.bytes.length < buffer.length) :
    ∃ buffer', strcpy buffer s = .ok buffer' ∧ buffer'.length = buffer.length ∧
      readStr buffer' = .ok s := by
  refine ⟨_, strcpy_ok h, ?_, readStr_block_append s _⟩
  rw [List.length_append, List.length_drop, CStr.block_length]
  omega

theorem strcat_reads (hs : readStr buffer = .ok s)
    (h : s.bytes.length + t.bytes.length < buffer.length) :
    ∃ buffer', strcat buffer t = .ok buffer' ∧ buffer'.length = buffer.length ∧
      readStr buffer' = .ok (s.append t) := by
  obtain ⟨rest, rfl⟩ := readStr_ok hs
  have hin : Inside (s.bytes ++ 0 :: rest) s.bytes.length t.block.length := by
    simp only [Inside, CStr.block_length]
    omega
  refine ⟨_, by rw [strcat, hs, ok_bind, writeAt, if_pos hin]; rfl, ?_, ?_⟩
  · simp only [List.length_append, List.length_take, List.length_drop, CStr.block_length,
      Int.toNat_natCast] at h ⊢
    omega
  · rw [Int.toNat_natCast, List.take_left' rfl, CStr.block]
    have hread := readStr_append (s.append t)
    simpa [CStr.append] using hread _

theorem strcat_room (hs : readStr buffer = .ok s) (h : Defined (strcat buffer t)) :
    s.bytes.length + t.bytes.length < buffer.length := by
  by_contra hnot
  obtain ⟨joined, h⟩ := h
  have hout : ¬ Inside buffer s.bytes.length t.block.length := by
    simp only [Inside, CStr.block_length]
    omega
  rw [strcat, hs, ok_bind, writeAt, if_neg hout] at h
  cases h

end

-- ---------------------------------------------------------------------------
-- atoi
-- ---------------------------------------------------------------------------

def isSpace (b : UInt8) : Bool := b == 32 || 9 ≤ b && b ≤ 13

def isDigit (b : UInt8) : Bool := 48 ≤ b && b ≤ 57

def digitsValue (digits : List UInt8) : Nat :=
  digits.foldl (fun n d => 10 * n + (d.toNat - 48)) 0

def saturate (x : Int) : Int := max (-2 ^ 63) (min x (2 ^ 63 - 1))

/-- `strtol(s, NULL, 10)`: spaces, a sign or none, and the digits behind it. -/
def strtol (bytes : List UInt8) : Int :=
  match bytes.dropWhile isSpace with
  | 45 :: rest => saturate (-digitsValue (rest.takeWhile isDigit))
  | 43 :: rest => saturate (digitsValue (rest.takeWhile isDigit))
  | rest => saturate (digitsValue (rest.takeWhile isDigit))

def atoi (s : CStr) : Int := toInt (strtol s.bytes)

/-- Decimal digits, behind a minus sign or none, that stand for `n`. -/
inductive Numeral : List UInt8 → Int → Prop
  | nonneg : digits ≠ [] → (∀ d ∈ digits, isDigit d) → Numeral digits (digitsValue digits)
  | neg : digits ≠ [] → (∀ d ∈ digits, isDigit d) → Numeral (45 :: digits) (-digitsValue digits)

theorem Numeral.digits (hn : Numeral bytes n) :
    bytes ≠ [] ∧ ∀ b ∈ bytes, b = 45 ∨ isDigit b := by
  cases hn with
  | nonneg hne hd => exact ⟨hne, fun b hb => .inr (hd b hb)⟩
  | neg hne hd =>
    exact ⟨by simp, List.forall_mem_cons.mpr ⟨.inl rfl, fun b hb => .inr (hd b hb)⟩⟩

theorem saturate_isInt (h : IsInt x) : saturate x = x := by
  obtain ⟨hlo, hhi⟩ := h
  simp only [intMin, intMax, saturate] at hlo hhi ⊢
  omega

theorem isDigit_iff {b : UInt8} : isDigit b ↔ 48 ≤ b.toNat ∧ b.toNat ≤ 57 := by
  simp [isDigit, UInt8.le_iff_toNat_le]

theorem digit_apart {b : UInt8} (hb : isDigit b) : isSpace b = false ∧ b ≠ 45 ∧ b ≠ 43 := by
  have hb := isDigit_iff.mp hb
  refine ⟨?_, ?_, ?_⟩
  · simp only [isSpace, UInt8.le_iff_toNat_le, Bool.or_eq_false_iff, beq_eq_false_iff_ne,
      Bool.and_eq_false_iff, decide_eq_false_iff_not]
    refine ⟨?_, .inr ?_⟩
    · rintro rfl
      exact absurd hb (by decide)
    · intro hle
      have : b.toNat ≤ 13 := hle
      omega
  · rintro rfl
    exact absurd hb (by decide)
  · rintro rfl
    exact absurd hb (by decide)

theorem strtol_numeral (hn : Numeral bytes n) (hi : IsInt n) : strtol bytes = n := by
  cases hn with
  | nonneg hne hd =>
    have hall := List.takeWhile_eq_self_iff.mpr hd
    obtain ⟨b, rest, rfl⟩ := List.exists_cons_of_ne_nil hne
    obtain ⟨hspace, hminus, hplus⟩ := digit_apart (hd b (by simp))
    rw [strtol, List.dropWhile_cons_of_neg (by simp [hspace])]
    split
    · rename_i heq
      exact absurd (List.head_eq_of_cons_eq heq) hminus
    · rename_i heq
      exact absurd (List.head_eq_of_cons_eq heq) hplus
    · rw [hall, saturate_isInt hi]
  | @neg digits hne hd =>
    have hall := List.takeWhile_eq_self_iff.mpr hd
    have hminus : (45 :: digits).dropWhile isSpace = 45 :: digits :=
      List.dropWhile_cons_of_neg (by decide)
    rw [strtol, hminus]
    simp only [hall, saturate_isInt hi]

theorem atoi_numeral {s : CStr} (hn : Numeral s.bytes n) (hi : IsInt n) : atoi s = n := by
  rw [atoi, strtol_numeral hn hi, toInt_of_isInt hi]

end Machine
