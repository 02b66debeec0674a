/-! Why and where a text is no value. Places are counted in bytes, so they are worked
out once, from the text that was left when reading stopped. -/

namespace SpellPack.Json

inductive Cause where
  | endInValue
  | endInList
  | endInObject
  | endInString
  | noValue
  | noWord
  | badNumber
  | numberOutOfRange
  | controlCharacter
  | badEscape
  | brokenPair
  | loneSurrogate
  | noListSeparator
  | noFieldSeparator
  | noColon
  | noKey
  | trailingComma
  | trailingText
  | tooDeep
  deriving DecidableEq, Repr

def Cause.message : Cause → String
  | .endInValue => "EOF while parsing a value"
  | .endInList => "EOF while parsing a list"
  | .endInObject => "EOF while parsing an object"
  | .endInString => "EOF while parsing a string"
  | .noValue => "expected value"
  | .noWord => "expected ident"
  | .badNumber => "invalid number"
  | .numberOutOfRange => "number out of range"
  | .controlCharacter => "control character (\\u0000-\\u001F) found while parsing a string"
  | .badEscape => "invalid escape"
  | .brokenPair => "unexpected end of hex escape"
  | .loneSurrogate => "lone leading surrogate in hex escape"
  | .noListSeparator => "expected `,` or `]`"
  | .noFieldSeparator => "expected `,` or `\x7d`"
  | .noColon => "expected `:`"
  | .noKey => "key must be a string"
  | .trailingComma => "trailing comma"
  | .trailingText => "trailing characters"
  | .tooDeep => "recursion limit exceeded"

/-- Reading stopped before `rest`, of which the first `ahead` bytes count as read. -/
structure Fault where
  cause : Cause
  rest : List Char
  ahead : Nat

/-- The fault is known once the next byte is in view. -/
def Fault.before (cause : Cause) (rest : List Char) : Fault := ⟨cause, rest, 1⟩

/-- The fault is known from what was read. -/
def Fault.after (cause : Cause) (rest : List Char) : Fault := ⟨cause, rest, 0⟩

/-- Lines count from one, columns are bytes since the last line feed. -/
structure Position where
  line : Nat
  column : Nat
  deriving DecidableEq, Repr

def byteCount : List Char → Nat
  | [] => 0
  | c :: rest => c.utf8Size + byteCount rest

/-- The position after that many bytes of the text, or at its end. -/
def Position.advance (position : Position) (bytes : Nat) : List Char → Position
  | [] => position
  | c :: rest =>
    if bytes = 0 then position
    else if c = '\n' then advance ⟨position.line + 1, 0⟩ (bytes - 1) rest
    else
      advance ⟨position.line, position.column + min bytes c.utf8Size⟩ (bytes - c.utf8Size) rest

structure ReadError where
  cause : Cause
  position : Position
  deriving DecidableEq, Repr

def Fault.locate (fault : Fault) (text : List Char) : ReadError :=
  let bytes := byteCount text - byteCount fault.rest + fault.ahead
  ⟨fault.cause, Position.advance ⟨1, 0⟩ bytes text⟩

def ReadError.message (error : ReadError) : String :=
  error.cause.message ++ " at line " ++ toString error.position.line ++
    " column " ++ toString error.position.column

/-- A reader takes what it needs from the front of the text and returns the rest. -/
abbrev Reader (α : Type) := List Char → Except Fault (α × List Char)

@[simp] theorem ok_bind (value : α) (next : α → Except ε β) : Except.ok value >>= next = next value := rfl

@[simp] theorem pure_eq_ok (value : α) : (pure value : Except ε α) = .ok value := rfl

theorem bind_eq_ok {attempt : Except ε α} {next : α → Except ε β} {result : β} :
    attempt >>= next = .ok result ↔ ∃ value, attempt = .ok value ∧ next value = .ok result := by
  cases attempt <;> simp [bind, Except.bind]

theorem mapError_eq_ok {attempt : Except ε α} {name : ε → ε'} {result : α} :
    attempt.mapError name = .ok result ↔ attempt = .ok result := by
  cases attempt with
  | ok value => exact ⟨fun same => congrArg _ (Except.ok.inj same), fun same => congrArg _ (Except.ok.inj same)⟩
  | error fault => exact ⟨nofun, nofun⟩

end SpellPack.Json
