import HashMapStorage.Data
import HashMapStorage.Machine.Text

/-!
# The commands of the client (`table-client.c`)

The loop of `main` reads a line into one buffer, and `token` points to a word
of it or to an empty literal. It is the condition of the loop, the command and
its last argument; where a branch leaves it is what the loop tests next.
-/

namespace HashMapStorage

open Machine

/-- A line as `fgets` finds it, without its newline; the buffer has room for it. -/
structure InputLine where
  text : CStr
  oneLine : 10 ∉ text.bytes
  fits : text.bytes.length + 2 ≤ 2048

/-- What `rtable_get` returns is part of the input, where the line calls it. -/
structure Input where
  line : InputLine
  reply : Option DataT

inductive StubCall
  | size
  | getkeys
  | get (key : CStr)
  | del (key : CStr)
  | put (entry : Option (CStr × List UInt8))
  | verify (op : Int)
  deriving DecidableEq

inductive Command
  | quit
  | size
  | getkeys
  | get
  | del
  | put
  | verify
  | unknown
  deriving DecidableEq

def literal (chars : List Char) : CStr := .ofBytes (chars.map fun c => c.toNat.toUInt8)

def quitText : CStr := literal ['q', 'u', 'i', 't']

def commandOf (token : CStr) : Command :=
  if token = quitText then .quit
  else if token = literal ['s', 'i', 'z', 'e'] then .size
  else if token = literal ['g', 'e', 't', 'k', 'e', 'y', 's'] then .getkeys
  else if token = literal ['g', 'e', 't'] then .get
  else if token = literal ['d', 'e', 'l'] then .del
  else if token = literal ['p', 'u', 't'] then .put
  else if token = literal ['v', 'e', 'r', 'i', 'f', 'y'] then .verify
  else .unknown

inductive Token
  | empty
  | within (start : Nat)
  deriving DecidableEq

structure CommandLoop where
  s : List UInt8
  token : Token

def CommandLoop.start (fill : Nat → UInt8) : CommandLoop :=
  ⟨(List.range 2048).map fill, .empty⟩

def CommandLoop.tokenText (m : CommandLoop) : Exec CStr :=
  match m.token with
  | .empty => pure .empty
  | .within start => readStr (m.s.drop start)

def space : List UInt8 := [32]

def fgets (s : List UInt8) (line : InputLine) : Exec (List UInt8) :=
  memcpy s (line.text.bytes ++ [10, 0]) (line.text.bytes.length + 2)

def dropNewline (s : List UInt8) : Exec (List UInt8) := do
  let text ← readStr s
  if text.bytes.length = 0 then throw .outOfBounds else pure (s.set (text.bytes.length - 1) 0)

/-- `strcmp(data->data, "") == 0`, which reads one byte. -/
def dataEmpty (reply : Option DataT) : Exec Bool :=
  match reply with
  | none => throw .nullPointer
  | some data =>
    match data.data with
    | none => throw .nullPointer
    | some [] => throw .outOfBounds
    | some (b :: _) => pure (b = 0)

/-- `token = strtok(NULL, " ")`: a token that is missing is replaced by the
literal, and ends the command. -/
def withArgument (s : List UInt8) (save : Nat)
    (next : List UInt8 → (start save : Nat) → CStr → Exec (CommandLoop × Option StubCall)) :
    Exec (CommandLoop × Option StubCall) := do
  let (token, s, save) ← strtok space s save
  match token with
  | none => pure (⟨s, .empty⟩, none)
  | some start => do
    let argument ← readStr (s.drop start)
    next s start save argument

def getCommand (s : List UInt8) (save : Nat) (reply : Option DataT) :
    Exec (CommandLoop × Option StubCall) :=
  withArgument s save fun s _ _ key => do
    -- either branch frees the reply
    let _ ← dataEmpty reply
    pure (⟨s, .empty⟩, some (.get key))

def delCommand (s : List UInt8) (save : Nat) : Exec (CommandLoop × Option StubCall) :=
  withArgument s save fun s start _ key => pure (⟨s, .within start⟩, some (.del key))

def tokenEntry (s : List UInt8) (start : Nat) (key token : CStr) : Option EntryT :=
  entryCreate (some key) (dataCreate2 token.bytes.length (some (s.drop start)))

def putCommand (s : List UInt8) (save : Nat) : Exec (CommandLoop × Option StubCall) :=
  withArgument s save fun s _ save key =>
    withArgument s save fun s start _ token =>
      let entry := tokenEntry s start key token
      pure (⟨s, .within start⟩, some (.put (entry.map fun e => (e.key, e.value.bytes))))

def verifyCommand (s : List UInt8) (save : Nat) : Exec (CommandLoop × Option StubCall) :=
  withArgument s save fun s start _ op => pure (⟨s, .within start⟩, some (.verify (atoi op)))

def runCommand (s : List UInt8) (reply : Option DataT) : Exec (CommandLoop × Option StubCall) := do
  let (token, s, save) ← strtok space s 0
  match token with
  | none => throw .nullPointer -- `strcmp(token, "quit")`
  | some start => do
    let word ← readStr (s.drop start)
    match commandOf word with
    | .size => pure (⟨s, .within start⟩, some .size)
    | .getkeys => pure (⟨s, .within start⟩, some .getkeys)
    | .get => getCommand s save reply
    | .del => delCommand s save
    | .put => putCommand s save
    | .verify => verifyCommand s save
    | .quit | .unknown => pure (⟨s, .within start⟩, none)

def CommandLoop.body (m : CommandLoop) (input : Input) :
    Exec (CommandLoop × Option StubCall) := do
  let s ← fgets m.s input.line
  let s ← dropNewline s
  let text ← readStr s
  if text = .empty then pure (⟨s, m.token⟩, none) else runCommand s input.reply

/-- What a run of the loop does: the call each line makes, and the lines that
are not read when it ends. -/
@[ext]
structure Session where
  calls : List (Option StubCall)
  ended : Option (List Input)

def Session.after (call : Option StubCall) (session : Session) : Session :=
  ⟨call :: session.calls, session.ended⟩

def commandLoop (m : CommandLoop) : List Input → Exec Session
  | [] => do
    let token ← m.tokenText
    pure ⟨[], if token = quitText then some [] else none⟩
  | input :: inputs => do
    let token ← m.tokenText
    if token = quitText then pure ⟨[], some (input :: inputs)⟩
    else do
      let (m, call) ← m.body input
      let session ← commandLoop m inputs
      pure (session.after call)

-- ---------------------------------------------------------------------------
-- What the commands are for
-- ---------------------------------------------------------------------------

def namedCall (command : CStr) (args : List CStr) : Option StubCall :=
  match commandOf command with
  | .size => some .size
  | .getkeys => some .getkeys
  | .get => args.head?.map .get
  | .del => args.head?.map .del
  | .put =>
    match args with
    | key :: value :: _ => some (.put (some (key, value.bytes)))
    | _ => none
  | .verify => args.head?.map fun op => .verify (atoi op)
  | .quit | .unknown => none

/-- The lines are taken in order up to the first `quit`, and one without a
token is passed over. -/
def intended : List Input → Session
  | [] => ⟨[], none⟩
  | input :: inputs =>
    match tokens space input.line.text with
    | [] => (intended inputs).after none
    | command :: args =>
      if command = quitText then ⟨[none], some inputs⟩
      else (intended inputs).after (namedCall command args)

namespace Input

def quits (input : Input) : Bool := (tokens space input.line.text).head? = some quitText

def readable (input : Input) : Bool :=
  match input.reply with
  | some ⟨_, some (_ :: _)⟩ => true
  | _ => false

/-- The line is not made of blanks, the argument the command ends with is not
`quit`, and what a `get` returns can be looked at. -/
def plain (input : Input) : Bool :=
  match tokens space input.line.text with
  | [] => input.line.text = .empty
  | command :: args =>
    match commandOf command with
    | .get => args = [] || input.readable
    | .del | .verify => args.head? ≠ some quitText
    | .put => args[1]? ≠ some quitText
    | _ => true

end Input

def PlainUntilQuit (inputs : List Input) : Prop :=
  ∀ input ∈ inputs.takeWhile (!·.quits), input.plain = true

-- ---------------------------------------------------------------------------
-- A line in the buffer
-- ---------------------------------------------------------------------------

theorem fgets_ok (hroom : s.length = 2048) (line : InputLine) :
    fgets s line = .ok (line.text.bytes ++ 10 :: 0 :: s.drop (line.text.bytes.length + 2)) := by
  have hfits := line.fits
  rw [fgets, memcpy_ok (by omega) (by simp), List.take_of_length_le (by simp)]
  simp

theorem dropNewline_ok (text : CStr) (behind : List UInt8) :
    dropNewline (text.bytes ++ 10 :: 0 :: behind) = .ok (text.bytes ++ 0 :: 0 :: behind) := by
  have hz : 0 ∉ text.bytes ++ [10] := by simp [text.nulFree]
  have hread : readStr (text.bytes ++ 10 :: 0 :: behind) = .ok ⟨text.bytes ++ [10], hz⟩ := by
    have happend := readStr_append ⟨text.bytes ++ [10], hz⟩ behind
    rwa [List.append_assoc] at happend
  rw [dropNewline, hread, ok_bind]
  simp [List.set_append_right]

structure CommandLoop.Holds (m : CommandLoop) (t : CStr) : Prop where
  room : m.s.length = 2048
  token : m.tokenText = .ok t

theorem start_holds (fill : Nat → UInt8) : (CommandLoop.start fill).Holds .empty :=
  ⟨by simp [CommandLoop.start], rfl⟩

section

variable {s : List UInt8} {save : Nat} {left : CStr}

theorem withArgument_none (hs : readStr (s.drop save) = .ok left) (ht : tokens space left = [])
    (next : List UInt8 → (start save : Nat) → CStr → Exec (CommandLoop × Option StubCall)) :
    withArgument s save next = .ok (⟨s, .empty⟩, none) := by
  obtain ⟨save', hr⟩ := strtok_tokens_nil hs ht
  rw [withArgument, hr, ok_bind]
  rfl

theorem withArgument_some (hs : readStr (s.drop save) = .ok left)
    (ht : tokens space left = t :: ts) :
    ∃ s' start save' left', (∀ next, withArgument s save next = next s' start save' t) ∧
      s'.length = s.length ∧ readStr (s'.drop start) = .ok t ∧ t ≠ .empty ∧
      readStr (s'.drop save') = .ok left' ∧ tokens space left' = ts := by
  obtain ⟨start, s', save', left', hr, hlen, htoken, hne, hleft, hts⟩ := strtok_tokens_cons hs ht
  refine ⟨s', start, save', left', fun next => ?_, hlen, htoken, hne, hleft, hts⟩
  rw [withArgument, hr, ok_bind]
  simp only [htoken, ok_bind]

theorem one_argument (hroom : s.length = 2048) (hs : readStr (s.drop save) = .ok left)
    (call : CStr → StubCall) :
    ∃ m, withArgument s save (fun s start _ a => pure (⟨s, .within start⟩, some (call a))) =
        .ok (m, (tokens space left).head?.map call) ∧
      m.Holds ((tokens space left).head?.getD .empty) := by
  cases ht : tokens space left with
  | nil => exact ⟨_, withArgument_none hs ht _, hroom, rfl⟩
  | cons t ts =>
    obtain ⟨s', start, save', left', hr, hlen, htoken, -⟩ := withArgument_some hs ht
    exact ⟨_, hr _, hlen.trans hroom, htoken⟩

theorem tokenEntry_eq (hs : readStr (s.drop start) = .ok token) (hne : token ≠ .empty)
    (key : CStr) :
    (tokenEntry s start key token).map (fun e => (e.key, e.value.bytes)) =
      some (key, token.bytes) := by
  obtain ⟨behind, hsplit⟩ := readStr_ok hs
  have hbytes : token.bytes ≠ [] := fun hnil => hne (CStr.ext_bytes hnil)
  simp [tokenEntry, dataCreate2, hbytes, entryCreate, DataT.bytes, hsplit]

theorem putCommand_ok (hroom : s.length = 2048) (hs : readStr (s.drop save) = .ok left) :
    ∃ m, putCommand s save =
        .ok (m, match tokens space left with
          | key :: value :: _ => some (.put (some (key, value.bytes)))
          | _ => none) ∧
      m.Holds ((tokens space left)[1]?.getD .empty) := by
  cases ht : tokens space left with
  | nil => exact ⟨_, withArgument_none hs ht _, hroom, rfl⟩
  | cons key ts =>
    obtain ⟨s₁, start, save₁, left₁, hr, hlen, -, -, hs₁, hts⟩ := withArgument_some hs ht
    cases ts with
    | nil => exact ⟨_, (hr _).trans (withArgument_none hs₁ hts _), hlen.trans hroom, rfl⟩
    | cons value ts =>
      obtain ⟨s₂, start₂, save₂, left₂, hr₂, hlen₂, htoken, hne, -⟩ := withArgument_some hs₁ hts
      refine ⟨⟨s₂, .within start₂⟩, ?_, hlen₂.trans (hlen.trans hroom), htoken⟩
      rw [putCommand, hr, hr₂]
      simp only [tokenEntry_eq htoken hne, pure_eq_ok]

variable {input : Input}

theorem readable_iff : input.readable = true ↔ Defined (dataEmpty input.reply) := by
  simp only [Input.readable, dataEmpty]
  rcases input.reply with - | ⟨size, - | - | ⟨b, block⟩⟩ <;> simp [Defined]

theorem getCommand_ok (hroom : s.length = 2048) (hs : readStr (s.drop save) = .ok left)
    (hr : tokens space left = [] ∨ input.readable = true) :
    ∃ m, getCommand s save input.reply = .ok (m, (tokens space left).head?.map .get) ∧
      m.Holds .empty := by
  cases ht : tokens space left with
  | nil => exact ⟨_, withArgument_none hs ht _, hroom, rfl⟩
  | cons key ts =>
    obtain ⟨s', start, save', left', hnext, hlen, -⟩ := withArgument_some hs ht
    obtain ⟨empty, hread⟩ := readable_iff.mp (hr.resolve_left (by simp [ht]))
    refine ⟨⟨s', .empty⟩, ?_, hlen.trans hroom, rfl⟩
    rw [getCommand, hnext, hread]
    rfl

theorem getCommand_undefined (hs : readStr (s.drop save) = .ok left)
    (hr : ¬ (tokens space left = [] ∨ input.readable = true)) :
    ¬ Defined (getCommand s save input.reply) := by
  obtain ⟨hargs, hread⟩ := not_or.mp hr
  obtain ⟨key, ts, ht⟩ := List.exists_cons_of_ne_nil hargs
  obtain ⟨s', start, save', left', hnext, -⟩ := withArgument_some hs ht
  rw [getCommand, hnext]
  rintro ⟨a, ha⟩
  obtain ⟨empty, hempty, -⟩ := seq_ok ha
  exact hread (readable_iff.mpr ⟨empty, hempty⟩)

end

-- ---------------------------------------------------------------------------
-- One round of the loop
-- ---------------------------------------------------------------------------

def leftToken (command : CStr) (args : List CStr) : CStr :=
  match commandOf command with
  | .get => .empty
  | .del | .verify => args.head?.getD .empty
  | .put => args[1]?.getD .empty
  | _ => command

def CommandLoop.entered (m : CommandLoop) (input : Input) : List UInt8 :=
  input.line.text.bytes ++ 0 :: 0 :: m.s.drop (input.line.text.bytes.length + 2)

section

variable {m : CommandLoop} {input : Input} {t : CStr}

theorem entered_length (h : m.Holds t) (input : Input) : (m.entered input).length = 2048 := by
  have hfits := input.line.fits
  have hroom := h.room
  simp only [CommandLoop.entered, List.length_append, List.length_cons, List.length_drop]
  omega

theorem entered_reads (m : CommandLoop) (input : Input) :
    readStr ((m.entered input).drop 0) = .ok input.line.text :=
  readStr_append input.line.text _

theorem body_eq (h : m.Holds t) (input : Input) :
    m.body input =
      if input.line.text = .empty then .ok (⟨m.entered input, m.token⟩, none)
      else runCommand (m.entered input) input.reply := by
  rw [CommandLoop.body, fgets_ok h.room, ok_bind, dropNewline_ok, ok_bind]
  exact congrArg (· >>= _) (entered_reads m input)

theorem empty_ne_quit : CStr.empty ≠ quitText := by decide

theorem body_empty (h : m.Holds t) (ht : t ≠ quitText) (he : input.line.text = .empty) :
    ∃ m' t', m.body input = .ok (m', none) ∧ m'.Holds t' ∧ t' ≠ quitText := by
  have hs : m.entered input = 0 :: 0 :: m.s.drop 2 := by simp [CommandLoop.entered, he, CStr.empty]
  have hroom := entered_length h input
  have htoken := h.token
  rw [body_eq h, if_pos he]
  cases hat : m.token with
  | empty => exact ⟨_, .empty, rfl, ⟨hroom, rfl⟩, empty_ne_quit⟩
  | within start =>
    rw [CommandLoop.tokenText, hat] at htoken
    rcases start with - | - | start
    · exact ⟨_, .empty, rfl, ⟨hroom, by rw [hs]; rfl⟩, empty_ne_quit⟩
    · exact ⟨_, .empty, rfl, ⟨hroom, by rw [hs]; rfl⟩, empty_ne_quit⟩
    · refine ⟨_, t, rfl, ⟨hroom, ?_⟩, ht⟩
      simp only [CommandLoop.tokenText, hs, List.drop_succ_cons, List.drop_drop]
      rw [Nat.add_comm 2 start]
      exact htoken

theorem body_blank (h : m.Holds t) (he : input.line.text ≠ .empty)
    (hb : tokens space input.line.text = []) : m.body input = .error .nullPointer := by
  obtain ⟨save, hr⟩ := strtok_tokens_nil (entered_reads m input) hb
  rw [body_eq h, if_neg he, runCommand, hr]
  rfl

theorem text_ne_empty (hb : tokens space input.line.text = command :: args) :
    input.line.text ≠ .empty := by
  intro he
  rw [he] at hb
  simp [tokens, CStr.empty, words_nil] at hb

theorem body_undefined (h : m.Holds t) (hb : tokens space input.line.text = command :: args)
    (hget : commandOf command = .get) (hr : ¬ (args = [] ∨ input.readable = true)) :
    ¬ Defined (m.body input) := by
  obtain ⟨start, s, save, left, hs, -, hword, -, hleft, rfl⟩ :=
    strtok_tokens_cons (entered_reads m input) hb
  rw [body_eq h, if_neg (text_ne_empty hb), runCommand, hs, ok_bind]
  simp only [hword, ok_bind, hget]
  exact getCommand_undefined hleft hr

theorem body_command (h : m.Holds t) (hb : tokens space input.line.text = command :: args)
    (hr : commandOf command = .get → args = [] ∨ input.readable = true) :
    ∃ m', m.body input = .ok (m', namedCall command args) ∧ m'.Holds (leftToken command args) := by
  obtain ⟨start, s, save, left, hs, hlen, hword, -, hleft, rfl⟩ :=
    strtok_tokens_cons (entered_reads m input) hb
  have hroom : s.length = 2048 := hlen.trans (entered_length h input)
  rw [body_eq h, if_neg (text_ne_empty hb), runCommand, hs, ok_bind]
  simp only [hword, ok_bind]
  cases hcommand : commandOf command <;> simp only [namedCall, leftToken, hcommand]
  case get => exact getCommand_ok hroom hleft (hr hcommand)
  case del => exact one_argument hroom hleft .del
  case put => exact putCommand_ok hroom hleft
  case verify => exact one_argument hroom hleft fun op => .verify (atoi op)
  all_goals exact ⟨⟨s, .within start⟩, rfl, hroom, hword⟩

end

-- ---------------------------------------------------------------------------
-- The loop
-- ---------------------------------------------------------------------------

theorem commandOf_quit : commandOf command = .quit ↔ command = quitText := by
  constructor
  · intro hcommand
    by_contra hne
    simp only [commandOf, hne, ↓reduceIte] at hcommand
    repeat' split at hcommand
    all_goals cases hcommand
  · rintro rfl
    rfl

theorem getD_ne_quit {token : Option CStr} :
    token.getD .empty ≠ quitText ↔ token ≠ some quitText := by
  cases token with
  | none => simp [empty_ne_quit]
  | some t => simp

theorem plain_blank {input : Input} (hb : tokens space input.line.text = []) :
    input.plain = true ↔ input.line.text = .empty := by
  simp only [Input.plain, hb, decide_eq_true_eq]

theorem plain_iff {input : Input} (hb : tokens space input.line.text = command :: args)
    (hq : command ≠ quitText) :
    input.plain = true ↔
      (commandOf command = .get → args = [] ∨ input.readable = true) ∧
        leftToken command args ≠ quitText := by
  cases hcommand : commandOf command <;>
    simp [Input.plain, leftToken, hb, hcommand, getD_ne_quit, empty_ne_quit, hq]

theorem intended_blank {input : Input} (hb : tokens space input.line.text = [])
    (inputs : List Input) : intended (input :: inputs) = (intended inputs).after none := by
  simp only [intended, hb]

theorem intended_command {input : Input} (hb : tokens space input.line.text = command :: args)
    (hq : command ≠ quitText) (inputs : List Input) :
    intended (input :: inputs) = (intended inputs).after (namedCall command args) := by
  simp only [intended, hb, hq, ↓reduceIte]

theorem intended_quit {input : Input} (hb : tokens space input.line.text = quitText :: args)
    (inputs : List Input) : intended (input :: inputs) = ⟨[none], some inputs⟩ := by
  simp only [intended, hb, ↓reduceIte]

theorem intended_shorter {inputs : List Input} (he : (intended inputs).ended = some rest) :
    rest.length < inputs.length := by
  induction inputs with
  | nil => cases he
  | cons input inputs ih =>
    simp only [intended] at he
    split at he
    · exact Nat.lt_succ_of_lt (ih he)
    · split at he
      · cases he
        exact Nat.lt_succ_self _
      · exact Nat.lt_succ_of_lt (ih he)

section

variable {m : CommandLoop} {input : Input} {t : CStr}

theorem commandLoop_ended (h : m.Holds quitText) (inputs : List Input) :
    commandLoop m inputs = .ok ⟨[], some inputs⟩ := by
  cases inputs <;> simp [commandLoop, h.token]

theorem commandLoop_cons (h : m.Holds t) (ht : t ≠ quitText) (inputs : List Input) :
    commandLoop m (input :: inputs) = (do
      let (m, call) ← m.body input
      let session ← commandLoop m inputs
      pure (session.after call)) := by
  simp [commandLoop, h.token, ht]

/-- Where the body goes on as the line says, the rest of the run decides. -/
theorem commandLoop_next (h : m.Holds t) (ht : t ≠ quitText)
    (hbody : m.body input = .ok (m', call)) (inputs : List Input) (session : Session) :
    commandLoop m (input :: inputs) = .ok (session.after call) ↔
      commandLoop m' inputs = .ok session := by
  rw [commandLoop_cons h ht, hbody, ok_bind]
  dsimp only
  cases commandLoop m' inputs with
  | error e => simp
  | ok session' => simp [Session.after, Session.ext_iff]

theorem commandLoop_undefined (h : m.Holds t) (ht : t ≠ quitText)
    (hbody : ¬ Defined (m.body input)) (inputs : List Input) :
    ¬ Defined (commandLoop m (input :: inputs)) := by
  rw [commandLoop_cons h ht]
  rintro ⟨session, hr⟩
  obtain ⟨a, ha, -⟩ := seq_ok hr
  exact hbody ⟨a, ha⟩

theorem plainUntilQuit_cons (hq : input.quits = false) (inputs : List Input) :
    PlainUntilQuit (input :: inputs) ↔ input.plain = true ∧ PlainUntilQuit inputs := by
  rw [PlainUntilQuit, List.takeWhile_cons_of_pos (by simp [hq]), List.forall_mem_cons]
  rfl

theorem plainUntilQuit_quit (hq : input.quits = true) (inputs : List Input) :
    PlainUntilQuit (input :: inputs) := by
  rw [PlainUntilQuit, List.takeWhile_cons_of_neg (by simp [hq])]
  simp

def Follows (inputs : List Input) : Prop :=
  ∀ {m : CommandLoop} {t : CStr}, m.Holds t → t ≠ quitText →
    (commandLoop m inputs = .ok (intended inputs) ↔ PlainUntilQuit inputs)

theorem follows_nil : Follows [] := by
  intro m t h ht
  simp [commandLoop, h.token, ht, intended, PlainUntilQuit]

theorem follows_blank (hb : tokens space input.line.text = []) (hrest : Follows inputs) :
    Follows (input :: inputs) := by
  intro m t h ht
  have hquits : input.quits = false := by simp [Input.quits, hb]
  rw [plainUntilQuit_cons hquits, plain_blank hb]
  by_cases he : input.line.text = .empty
  · obtain ⟨m', t', hbody, h', ht'⟩ := body_empty h ht he
    rw [intended_blank hb, commandLoop_next h ht hbody, hrest h' ht']
    exact (and_iff_right he).symm
  · refine iff_of_false (fun hr => ?_) fun hall => he hall.1
    refine commandLoop_undefined h ht ?_ inputs ⟨_, hr⟩
    simp [Defined, body_blank h he hb]

theorem follows_quit (hb : tokens space input.line.text = quitText :: args) (inputs : List Input) :
    Follows (input :: inputs) := by
  intro m t h ht
  have hquits : input.quits = true := by simp [Input.quits, hb]
  obtain ⟨m', hbody, h'⟩ := body_command h hb fun hget => by
    rw [commandOf_quit.mpr rfl] at hget
    cases hget
  have hended : commandLoop m' inputs = .ok ⟨[], some inputs⟩ := commandLoop_ended h' inputs
  rw [intended_quit hb]
  exact iff_of_true ((commandLoop_next h ht hbody inputs _).mpr hended)
    (plainUntilQuit_quit hquits inputs)

theorem follows_command (hb : tokens space input.line.text = command :: args)
    (hq : command ≠ quitText) (hrest : Follows inputs) : Follows (input :: inputs) := by
  intro m t h ht
  have hquits : input.quits = false := by simp [Input.quits, hb, hq]
  rw [plainUntilQuit_cons hquits, plain_iff hb hq]
  by_cases hread : commandOf command = .get → args = [] ∨ input.readable = true
  · obtain ⟨m', hbody, h'⟩ := body_command h hb hread
    rw [intended_command hb hq, commandLoop_next h ht hbody]
    by_cases hleft : leftToken command args = quitText
    · -- the loop ends here and leaves more lines than it should
      rw [hleft] at h'
      rw [commandLoop_ended h']
      refine iff_of_false (fun hr => ?_) fun hall => hall.1.2 hleft
      have he : (intended inputs).ended = some inputs :=
        congrArg Session.ended (Except.ok.inj hr).symm
      exact absurd (intended_shorter he) (Nat.lt_irrefl _)
    · rw [hrest h' hleft]
      exact (and_iff_right ⟨hread, hleft⟩).symm
  · obtain ⟨hget, hnot⟩ := Classical.not_imp.mp hread
    refine iff_of_false (fun hr => ?_) fun hall => hread hall.1.1
    exact commandLoop_undefined h ht (body_undefined h hb hget hnot) inputs ⟨_, hr⟩

theorem follows (inputs : List Input) : Follows inputs := by
  induction inputs with
  | nil => exact follows_nil
  | cons input inputs ih =>
    cases hb : tokens space input.line.text with
    | nil => exact follows_blank hb ih
    | cons command args =>
      by_cases hq : command = quitText
      · exact follows_quit (hq ▸ hb) inputs
      · exact follows_command hb hq ih

end

/-- The loop takes the lines in order, makes the call that each one names, and
ends exactly at the first `quit`, if and only if every line before that is plain. -/
theorem commands_until_quit_iff (fill : Nat → UInt8) (inputs : List Input) :
    commandLoop (.start fill) inputs = .ok (intended inputs) ↔ PlainUntilQuit inputs :=
  follows inputs (start_holds fill) empty_ne_quit

def inputOf (chars : List Char) (oneLine : 10 ∉ (literal chars).bytes)
    (fits : (literal chars).bytes.length + 2 ≤ 2048) : Input :=
  ⟨⟨literal chars, oneLine, fits⟩, none⟩

def delQuitLine : Input :=
  inputOf ['d', 'e', 'l', ' ', 'q', 'u', 'i', 't'] (by decide) (by decide)

def sizeLine : Input := inputOf ['s', 'i', 'z', 'e'] (by decide) (by decide)

def blankLine : Input := inputOf [' '] (by decide) (by decide)

/-- The key of a `del` ends the loop before the line behind it is read; a blank
ends the program. -/
theorem key_ends_loop :
    (delQuitLine.quits = false ∧
      commandLoop (.start fun _ => 0) [delQuitLine, sizeLine] =
        .ok ⟨[some (.del quitText)], some [sizeLine]⟩) ∧
    tokens space blankLine.line.text = [] ∧
      commandLoop (.start fun _ => 0) [blankLine, sizeLine] = .error .nullPointer := by
  have hstart := start_holds fun _ => 0
  have hdel : tokens space delQuitLine.line.text = [literal ['d', 'e', 'l'], quitText] := by decide
  have hblank : tokens space blankLine.line.text = [] := by decide
  refine ⟨⟨by decide, ?_⟩, hblank, ?_⟩
  · obtain ⟨m, hbody, hm⟩ := body_command hstart hdel (by decide)
    have hended : commandLoop m [sizeLine] = .ok ⟨[], some [sizeLine]⟩ := commandLoop_ended hm _
    exact (commandLoop_next hstart empty_ne_quit hbody _ _).mpr hended
  · rw [commandLoop_cons hstart empty_ne_quit, body_blank hstart (by decide) hblank]
    rfl

end HashMapStorage
