import ModelText.Source

/-!
# Searching for delimiters

A search looks for tokens in a span from left to right and cannot see into inhibited regions:
string literals, comments, tags and nested blocks. A region that never closes hides the rest of the
span. At one offset a token is looked for before a region is entered.
-/

namespace ModelText

/-- How the end of an inhibited region is found. -/
inductive RegionKind where
  /-- A string literal: a backslash hides the character after it. -/
  | quoted
  /-- The first closing token ends the region. -/
  | flat
  /-- The first closing token outside of string literals ends the region. -/
  | tag
  /-- Regions nest, and every inhibitor applies inside. -/
  | nested
  deriving DecidableEq, Repr

/-- A region of text in which searched tokens are invisible. -/
structure Inhibitor where
  opener : String
  closer : String
  kind : RegionKind
  deriving DecidableEq, Repr

namespace Source

/-- Whether a non-empty token stands at an offset and ends at `stop` or before. -/
def tokenAt (src : Source) (offset : Nat) (token : String) (stop : Nat) : Bool :=
  let bytes := tokenBytes token
  !bytes.isEmpty && offset + bytes.length ≤ stop && src.holds offset bytes

/-- What a search does at an offset where no token stands. -/
inductive Skip where
  /-- No region opens here. -/
  | visible
  /-- A region opens here and ends in front of this offset. -/
  | resume (offset : Nat)
  /-- A region opens here and never closes. -/
  | unterminated
  deriving DecidableEq, Repr

/-- Skips nothing. -/
def skipNothing : Nat → Skip := fun _ => .visible

/-- The first of the tokens that stands at an offset: its index and its span. -/
def firstTokenAt (src : Source) (offset stop : Nat) : List String → Option (Nat × Span)
  | [] => none
  | token :: rest =>
    if src.tokenAt offset token stop then
      some (0, Span.ordered offset (offset + token.utf8ByteSize))
    else
      (src.firstTokenAt offset stop rest).map fun (index, s) => (index + 1, s)

/-- The leftmost of the tokens from `offset` on; `fuel` bounds the bytes left. -/
def findFrom (src : Source) (tokens : List String) (skip : Nat → Skip) (stop : Nat) :
    Nat → Nat → Option (Nat × Span)
  | 0, _ => none
  | fuel + 1, offset =>
    if offset < stop then
      match src.firstTokenAt offset stop tokens with
      | some found => some found
      | none =>
        match skip offset with
        | .visible => src.findFrom tokens skip stop fuel (offset + 1)
        | .resume next => src.findFrom tokens skip stop fuel next
        | .unterminated => none
    else
      none

/-- The closing token that matches an opening token already read, with `depth` more of them open;
`fuel` bounds the bytes left. -/
def closeFrom (src : Source) (opener closer : String) (nesting : Bool) (skip : Nat → Skip)
    (stop : Nat) : Nat → Nat → Nat → Option Span
  | 0, _, _ => none
  | fuel + 1, depth, offset =>
    if offset < stop then
      if src.tokenAt offset closer stop then
        match depth with
        | 0 => some (Span.ordered offset (offset + closer.utf8ByteSize))
        | depth + 1 =>
          src.closeFrom opener closer nesting skip stop fuel depth (offset + closer.utf8ByteSize)
      else if nesting && src.tokenAt offset opener stop then
        src.closeFrom opener closer nesting skip stop fuel (depth + 1)
          (offset + opener.utf8ByteSize)
      else
        match skip offset with
        | .visible => src.closeFrom opener closer nesting skip stop fuel depth (offset + 1)
        | .resume next => src.closeFrom opener closer nesting skip stop fuel depth next
        | .unterminated => none
    else
      none

/-- The first closing quote that no backslash hides; `fuel` bounds the bytes left. -/
def quoteEndFrom (src : Source) (closer : String) (stop : Nat) : Nat → Nat → Option Span
  | 0, _ => none
  | fuel + 1, offset =>
    if offset < stop then
      if src.byte? offset == some 0x5C then
        src.quoteEndFrom closer stop fuel (offset + 2)
      else if src.tokenAt offset closer stop then
        some (Span.ordered offset (offset + closer.utf8ByteSize))
      else
        src.quoteEndFrom closer stop fuel (offset + 1)
    else
      none

/-- The skip that the end of a region decides. -/
def Skip.ofEnd : Option Span → Skip
  | some s => .resume s.stop
  | none => .unterminated

/-- The inhibitor whose region opens at an offset. -/
def inhibitorAt (src : Source) (inhibitors : List Inhibitor) (offset stop : Nat) :
    Option Inhibitor :=
  inhibitors.find? fun i => src.tokenAt offset i.opener stop

/-- Skips the string literals among the inhibitors. -/
def skipQuoted (src : Source) (inhibitors : List Inhibitor) (stop offset : Nat) : Skip :=
  match src.inhibitorAt (inhibitors.filter (·.kind = .quoted)) offset stop with
  | none => .visible
  | some i =>
    let inner := offset + i.opener.utf8ByteSize
    .ofEnd (src.quoteEndFrom i.closer stop (stop - inner) inner)

/-- Skips the region that opens at an offset; `depth` bounds how deep regions nest. -/
def skipRegion (src : Source) (inhibitors : List Inhibitor) (stop : Nat) : Nat → Nat → Skip
  | 0, _ => .unterminated
  | depth + 1, offset =>
    match src.inhibitorAt inhibitors offset stop with
    | none => .visible
    | some i =>
      let inner := offset + i.opener.utf8ByteSize
      .ofEnd <|
        match i.kind with
        | .quoted => src.quoteEndFrom i.closer stop (stop - inner) inner
        | .flat => (src.findFrom [i.closer] skipNothing stop (stop - inner) inner).map (·.2)
        | .tag =>
          (src.findFrom [i.closer] (src.skipQuoted inhibitors stop) stop (stop - inner) inner).map
            (·.2)
        | .nested =>
          src.closeFrom i.opener i.closer true (src.skipRegion inhibitors stop depth) stop
            (stop - inner) 0 inner

/-- Skips the regions of `inhibitors` in a search that ends at `stop`. A nested region starts
behind the opening token of the one around it, so no more than `stop` of them lie in each other. -/
def skipInhibited (src : Source) (inhibitors : List Inhibitor) (stop : Nat) : Nat → Skip :=
  src.skipRegion inhibitors stop (stop + 1)

/-- The leftmost visible occurrence of any of the tokens, with the index of the token. At one
offset the tokens are tried in the order given. -/
def findAny? (src : Source) (tokens : List String) (limits : Span) (inhibitors : List Inhibitor) :
    Option (Nat × Span) :=
  let stop := min limits.stop src.size
  src.findFrom tokens (src.skipInhibited inhibitors stop) stop (stop - limits.start) limits.start

/-- The leftmost visible occurrence of a token. -/
def find? (src : Source) (token : String) (limits : Span) (inhibitors : List Inhibitor) :
    Option Span :=
  (src.findAny? [token] limits inhibitors).map (·.2)

/-- The visible closing token that matches an opening token read just before `limits`. With
`nesting`, each further opening token has to be closed first. -/
def blockEnd? (src : Source) (opener closer : String) (limits : Span) (nesting : Bool)
    (inhibitors : List Inhibitor) : Option Span :=
  let stop := min limits.stop src.size
  src.closeFrom opener closer nesting (src.skipInhibited inhibitors stop) stop
    (stop - limits.start) 0 limits.start

end Source

end ModelText
