import ResourceIndex.Text.Cut
import ResourceIndex.Text.Percent
import ResourceIndex.Url.Punycode
/-
Hosts of URLs: domain names, the two forms of numeric addresses, and opaque names of schemes that
give hosts no meaning.
-/
namespace ResourceIndex

inductive UrlError where
  | relativeWithoutBase | emptyHost | invalidPort | invalidIpv4 | invalidIpv6 | invalidDomain
  | invalidHostCharacter
deriving DecidableEq, Repr, Inhabited

namespace UrlError

def message : UrlError → String
  | relativeWithoutBase => "relative URL without a base"
  | emptyHost => "empty host"
  | invalidPort => "invalid port number"
  | invalidIpv4 => "invalid IPv4 address"
  | invalidIpv6 => "invalid IPv6 address"
  | invalidDomain => "invalid international domain name"
  | invalidHostCharacter => "invalid domain character"

end UrlError

inductive Host where
  | domain : List Char → Host
  | ipv4 : Nat → Host
  | ipv6 : List Nat → Host
deriving DecidableEq, Repr

namespace Host

def isForbidden (c : Char) : Bool :=
  ['\x00', '\t', '\n', '\r', ' ', '#', '/', ':', '<', '>', '?', '@', '[', '\\', ']', '^',
    '|'].contains c

def isForbiddenInDomain (c : Char) : Bool :=
  isForbidden c || c.toNat < 32 || c = '%' || c.toNat = 127

/-- The number a part of an address writes; the second layer is none beyond 32 bits. -/
def ipv4Number? (s : List Char) : Option (Option Nat) :=
  let (radix, digits) := match s with
    | '0' :: x :: r => if x = 'x' ∨ x = 'X' then (16, r) else (8, x :: r)
    | r => (10, r)
  let value? (c : Char) : Option Nat :=
    match Text.hexValue? c with
    | some v => if v < radix then some v else none
    | none => none
  if s = [] then none
  else match digits.mapM value? with
    | none => none
    | some vs =>
      let n := vs.foldl (fun n v => n * radix + v) 0
      some (if n < UInt32.size then some n else none)

/-- The parts of a dotted name, without the empty one after a final dot. -/
def dottedParts (s : List Char) : List (List Char) :=
  let parts := Text.splitOn '.' s
  if parts.getLast? = some [] && 1 < parts.length then parts.dropLast else parts

/-- Whether the last part of a name is a number, which makes it an address. -/
def endsInNumber (s : List Char) : Bool :=
  match (dottedParts s).getLast? with
  | none => false
  | some last => (!last.isEmpty && last.all Char.isDigit) || (ipv4Number? last).isSome

def ipv4? (s : List Char) : Option Nat := do
  let numbers ← (dottedParts s).mapM fun p => (ipv4Number? p).join
  let last ← numbers.getLast?
  let front := numbers.dropLast
  if 4 < numbers.length then none
  else if 1 <<< (8 * (4 - front.length)) ≤ last then none
  else if front.any (255 < ·) then none
  else some (front.zipIdx.foldl (fun address (n, i) => address + n <<< (8 * (3 - i))) last)

/-- The groups between colons of an address, the last of which may be a dotted one. -/
def ipv6Groups? : List (List Char) → Option (List Nat)
  | [] => some []
  | [g] => (group? g).orElse fun _ => dotted? g
  | g :: gs => do return (← group? g) ++ (← ipv6Groups? gs)
where
  group? (g : List Char) : Option (List Nat) := do
    let vs ← g.mapM Text.hexValue?
    if vs.isEmpty || 4 < vs.length then none else some [vs.foldl (fun n v => n * 16 + v) 0]
  byte? (p : List Char) : Option Nat :=
    let n := Text.digitsValue p
    if p.isEmpty || 3 < p.length || !p.all Char.isDigit || 255 < n then none
    else if 1 < p.length && p.head? = some '0' then none
    else some n
  dotted? (g : List Char) : Option (List Nat) := do
    match ← (Text.splitOn '.' g).mapM byte? with
    | [a, b, c, d] => some [a * 256 + b, c * 256 + d]
    | _ => none

/-- The eight groups of an address between brackets. -/
def ipv6? (s : List Char) : Option (List Nat) :=
  let rec cut (before : List Char) : List Char → Option (List Char × List Char)
    | ':' :: ':' :: r => some (before.reverse, r)
    | c :: r => cut (c :: before) r
    | [] => none
  let side (p : List Char) : Option (List Nat) :=
    if p = [] then some [] else ipv6Groups? (Text.splitOn ':' p)
  match cut [] s with
  | none => do
    let gs ← side s
    if gs.length = 8 then some gs else none
  | some (front, back) => do
    if front.contains '.' then none
    let f ← side front
    let b ← side back
    if f.length + b.length < 8 then
      some (f ++ List.replicate (8 - f.length - b.length) 0 ++ b)
    else none

/-- Whether a label of a domain name stands for itself or decodes. -/
def isLabel (label : List Char) : Bool :=
  match ['x', 'n', '-', '-'].isPrefixOf? label with
  | some code =>
    match Punycode.decode? code with
    | some s => s.any fun c => 127 < c.toNat
    | none => false
  | none => true

/-- Characters that are left out of domain names. -/
def isIgnored (c : Char) : Bool :=
  let n := c.toNat
  n = 0xAD || n = 0x200B || n = 0x2060 || n = 0xFEFF || (0xFE00 ≤ n && n ≤ 0xFE0F)

def mapped (c : Char) : List Char :=
  let n := c.toNat
  if isIgnored c then []
  else if 0xFF01 ≤ n ∧ n ≤ 0xFF5E then [(Char.ofNat (n - 0xFEE0)).toLower]
  else if n = 0x3002 ∨ n = 0xFF61 then ['.']
  else if n = 0xA0 ∨ n = 0x3000 then [' ']
  else [c.toLower]

/-- The name that percent-encoded text writes, in lower case; none when it is no domain name. -/
def domain? (s : List Char) : Option (List Char) := do
  let name := (← Text.ofBytes? (Text.percentDecode s)).flatMap mapped
  let wrong := name.any fun c =>
    isForbiddenInDomain c || (0x80 ≤ c.toNat && c.toNat < 0xA0) || c.toNat = 0xFFFD
  if wrong || !(Text.splitOn '.' name).all isLabel then none else some name

def bracketed (s : List Char) : Except UrlError Host :=
  match if s.getLast? = some ']' then ipv6? (s.drop 1).dropLast else none with
  | some groups => .ok (.ipv6 groups)
  | none => .error .invalidIpv6

def parse (s : List Char) : Except UrlError Host :=
  if s.head? = some '[' then bracketed s
  else match domain? s with
    | none => .error .invalidDomain
    | some [] => .error .emptyHost
    | some name =>
      if endsInNumber name then
        match ipv4? name with
        | some n => .ok (.ipv4 n)
        | none => .error .invalidIpv4
      else .ok (.domain name)

def parseOpaque (s : List Char) : Except UrlError Host :=
  if s.head? = some '[' then bracketed s
  else if s.any isForbidden then .error .invalidHostCharacter
  else .ok (.domain (Text.percentEncode [] s))

end Host

end ResourceIndex
