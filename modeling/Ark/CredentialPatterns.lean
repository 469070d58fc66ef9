import Ark.MaskedText

/-!
# The credential patterns

The two expressions with which credentials are removed from strings, as the trace redactor and the
logging filter of the API write them. The first one is anchored at a key and ignores case; what counts
as a space and which symbols a letter stands for depends on the engine. The second one is the same in
both engines.
-/

namespace Ark.Redact

open OrderedRegex OrderedRegex.Re

/-- A symbol of a string: a code point, or a byte that is not part of one. -/
inductive Sym where
  | char (c : Char)
  | raw (b : UInt8)
  deriving DecidableEq, Repr

/-- What an engine reads. -/
def Sym.rune : Sym → Char
  | char c => c
  | raw _ => '\uFFFD'

def ofString (s : String) : List Sym := s.toList.map Sym.char

def redactedPlaceholder : List Sym := ofString "[REDACTED]"

def on (p : Char → Bool) (x : Sym) : Bool := p x.rune

def text (s : String) : Re Sym := word (s.toList.map fun c => on (· == c))

structure Engine where
  keys : List String
  space : Char → Bool
  /-- Whether a lower case letter of the pattern stands for a symbol. -/
  folds : Char → Char → Bool

/-! ### Characters -/

def isQuote (c : Char) : Bool := c == '\'' || c == '"'

def isSeparator (c : Char) : Bool := c == '=' || c == ':'

def wordDash (c : Char) : Bool := c.isAlphanum || c == '_' || c == '-'

def isHex (c : Char) : Bool :=
  c.isDigit || ('a' ≤ c && c ≤ 'f') || ('A' ≤ c && c ≤ 'F')

def upperDigit (c : Char) : Bool := c.isDigit || c.isUpper

def upperSpace (c : Char) : Bool := c.isUpper || c == ' '

def tokenChar (c : Char) : Bool := c.isAlphanum || "._~+/=-".toList.contains c

namespace Engine

variable (e : Engine)

/-- What may stand in the token after a scheme. -/
def schemeChar (c : Char) : Bool := !(e.space c || c == ',' || c == ';')

/-- What may stand in an unquoted value. -/
def plain (c : Char) : Bool :=
  !(e.space c || c == ',' || c == ';' || c == '&' || c == '\x7d' || isQuote c)

def foldText (s : String) : Re Sym := word (s.toList.map fun l => on (e.folds l))

def names : Re Sym :=
  match e.keys with
  | [] => cls fun _ => false
  | k :: ks => alts (e.foldText k) (ks.map e.foldText)

def key : Re Sym := seq (opt (cls (on isQuote))) (seq e.names (opt (cls (on isQuote))))

def sep : Re Sym := seq (star (on e.space)) (seq (cls (on isSeparator)) (star (on e.space)))

def quoted (q : Char) : Re Sym :=
  seq (cls (on (· == q))) (seq (star (on (· != q))) (cls (on (· == q))))

def scheme : Re Sym :=
  seq (alt (e.foldText "bearer") (e.foldText "basic"))
    (seq (plus (on e.space)) (plus (on e.schemeChar)))

def val : Re Sym := alts (quoted '\'') [quoted '"', e.scheme, plus (on e.plain)]

def keyAnchoredPattern (s : List Sym) : Option (Groups Sym) := groups e.key e.sep e.val s

/-- Replaces the value by the placeholder. -/
def keyRule : Rule Sym := fun s =>
  (e.keyAnchoredPattern s).map fun g => (g.key ++ g.sep ++ redactedPlaceholder, g.rest)

end Engine

/-! ### Shapes -/

def jwt : Re Sym :=
  seqs (text "eyJ") [plus (on wordDash), text ".eyJ", plus (on wordDash), text ".", plus (on wordDash)]

def providerKey : Re Sym :=
  seqs (text "sk-") [opt (alt (text "ant-") (text "proj-")), atLeast 40 (on wordDash)]

def gitHubToken : Re Sym :=
  seqs (text "gh") [cls (on fun c => "pousr".toList.contains c), text "_",
    atLeast 36 (on Char.isAlphanum)]

def gitHubPat : Re Sym :=
  seqs (text "github_pat_") [atLeast 22 (on fun c => c.isAlphanum || c == '_')]

def awsKey : Re Sym := seqs (alt (text "AKIA") (text "ASIA")) [exactly 16 (on upperDigit)]

def googleKey : Re Sym := seqs (text "AIza") [exactly 35 (on wordDash)]

def slackToken : Re Sym :=
  seqs (text "xox") [cls (on fun c => "baprs".toList.contains c), text "-",
    atLeast 10 (on fun c => c.isAlphanum || c == '-')]

def stripeKey : Re Sym :=
  seqs (alt (text "sk") (text "rk")) [text "_live_", atLeast 16 (on Char.isAlphanum)]

def serviceCredential : Re Sym :=
  seqs (exactly 8 (on isHex)) [text "-", exactly 4 (on isHex), text "-", exactly 4 (on isHex),
    text "-", exactly 4 (on isHex), text "-", exactly 12 (on isHex), text ":",
    atLeast 16 (on tokenChar)]

def pemHeader : Re Sym := seqs (text "-----BEGIN ") [star (on upperSpace), text "PRIVATE KEY-----"]

def pemFooter : Re Sym := seqs (text "-----END ") [star (on upperSpace), text "PRIVATE KEY-----"]

def pem : Re Sym := seq pemHeader (seq (lazy fun _ => true) pemFooter)

def shapePattern : Re Sym :=
  alts jwt [providerKey, gitHubToken, gitHubPat, awsKey, googleKey, slackToken, stripeKey,
    serviceCredential, pem]

def shapeRule : Rule Sym := fun s => (shapePattern.first s).map fun m => (redactedPlaceholder, m.2)

/-! ### Redaction -/

def matchString (m : Rule Sym) (s : List Sym) : Bool := s.tails.any fun t => (m t).isSome

/-- `Redact`, with the guards that skip a replacement. -/
def Engine.redact (e : Engine) (s : List Sym) : List Sym :=
  let s := if matchString e.keyRule s then replaceAll e.keyRule s else s
  if matchString shapeRule s then replaceAll shapeRule s else s

/-- `_redact_string`, without them. -/
def Engine.redactString (e : Engine) (s : List Sym) : List Sym :=
  replaceAll shapeRule (replaceAll e.keyRule s)

/-- A letter in lower case stands for itself and its capital, an `s` for the long s and a `k` for the
Kelvin sign. -/
def goFolds (l c : Char) : Bool :=
  c == l || c == l.toUpper || (l == 's' && c == 'ſ') || (l == 'k' && c == '\u212A')

def go : Engine where
  keys := ["access_token", "refresh_token", "client_secret", "code_verifier", "authorization"]
  space c := c == '\t' || c == '\n' || c == '\x0c' || c == '\x0d' || c == ' '
  folds := goFolds

/-- The logging filter sorts the keys, has every Unicode space and lets an `i` stand for the capital
with a dot and the small letter without one. -/
def python : Engine where
  keys := ["access_token", "authorization", "client_secret", "code_verifier", "refresh_token"]
  space c :=
    (0x09 ≤ c.toNat && c.toNat ≤ 0x0D) || (0x1C ≤ c.toNat && c.toNat ≤ 0x20) || c.toNat == 0x85 ||
      c.toNat == 0xA0 || c.toNat == 0x1680 || (0x2000 ≤ c.toNat && c.toNat ≤ 0x200A) ||
      c.toNat == 0x2028 || c.toNat == 0x2029 || c.toNat == 0x202F || c.toNat == 0x205F ||
      c.toNat == 0x3000
  folds l c := goFolds l c || (l == 'i' && (c == '\u0130' || c == '\u0131'))

example : go.redact (ofString "authorization: Bearer abc, x") =
    ofString "authorization: [REDACTED], x" := by decide +kernel

end Ark.Redact
