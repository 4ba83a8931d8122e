import ModelText.Service.Basic
import ModelText.Text.Split

/-!
# Services for every script

The services on texts, on lists and on objects that every script file sees. Texts are indexed by
characters, from zero.
-/

namespace ModelText.Service

/-- The failure of a service that cannot take an argument. -/
def invalid (name message : String) : Failure := { cause := .invalidArgument name message }

/-- The text of a receiver; of anything else the empty text. -/
def textOf (d : Datum) : TracedText :=
  d.value.text?.getD (.ofString "" d.container d.origin)

/-- The list of a receiver; of anything else the empty list. -/
def itemsOf (d : Datum) : ItemList := d.value.list?.getD {}

/-- The text of the first argument. -/
def textArg (args : List Datum) : String :=
  ((args.head?.bind fun d => d.value.text?).map (·.value)).getD ""

/-- The integer of an argument; zero when it is none. -/
def intArg (args : List Datum) (index : Nat) : Int64 :=
  match args[index]? with
  | some { value := .scalar (.int n), .. } => n
  | _ => 0

/-- The receiver with another text. -/
def withText (d : Datum) (edit : TracedText → TracedText) : Datum :=
  d.with (.scalar (.text (edit (textOf d))))

/-- The byte offset of the character with the given index. -/
def offsetOf? (s : String) (index : Int64) : Option Nat :=
  if 0 ≤ index.toInt then Text.charOffset? s index.toInt.toNat else none

/-- The characters of a text from one index to another, or to its end. -/
def substring (d : Datum) (start : Int64) (stop : Option Int64) : Except Failure Datum :=
  let value := (textOf d).value
  let outOfRange (index : Int64) : Failure :=
    invalid "substring" s!"index {index.toInt} out of range"
  match offsetOf? value start with
  | none => .error (outOfRange start)
  | some first =>
    match stop with
    | none => .ok (withText d (·.slice (Span.ordered first value.utf8ByteSize)))
    | some stop =>
      match offsetOf? value stop with
      | none => .error (outOfRange stop)
      | some last =>
        if last < first then
          .error (invalid "substring" s!"{start.toInt} is after {stop.toInt}")
        else
          .ok (withText d (·.slice (Span.ordered first last)))

/-- The index of the first occurrence of a text, or minus one. -/
def indexOf (s token : String) : Int64 :=
  match Text.splitFirst token.toList s.toList with
  | some (before, _) => Int64.ofInt before.length
  | none => -1

/-- The spans of bytes between the occurrences of a separator, which do not overlap. `start` is where
the first of them starts; `fuel` bounds the occurrences. -/
def partsFrom (separator : List Char) : Nat → Nat → List Char → List Span
  | 0, start, cs => [Span.ordered start (start + Text.byteCount cs)]
  | fuel + 1, start, cs =>
    match Text.splitFirst separator cs with
    | none => [Span.ordered start (start + Text.byteCount cs)]
    | some (before, after) =>
      let stop := start + Text.byteCount before
      Span.ordered start stop ::
        partsFrom separator fuel (stop + Text.byteCount separator) after

/-- The parts of a text between the occurrences of a separator. -/
def split (d : Datum) (separator : String) : Except Failure Datum :=
  if separator.isEmpty then .error (invalid "split" "empty separator")
  else
    let text := textOf d
    let spans := partsFrom separator.toList text.value.length 0 text.value.toList
    let items := spans.map fun span => d.with (Scalar.text (text.slice span))
    .ok (Datum.ofList { items } d)

/-- A list made by adding values one after the other. -/
def collect (a : Accessor) (unique : Bool) (values : List Datum) : ItemList :=
  values.foldl (·.pushDatum a ·) { unique }

/-- The items of a receiver as values. -/
def valuesOf (d : Datum) : List Datum := (itemsOf d).items.map Traced.toDatum

/-- The items with a separator between each two of them. -/
def separated (separator : Datum) : List Datum → List Datum
  | [] => []
  | [d] => [d]
  | d :: rest => d :: separator :: separated separator rest

/-- The objects of a list that belong to the object of the receiver. -/
def objects (a : Accessor) (d : Datum) (ids : List ObjectId) : Datum :=
  Datum.ofList (collect a false (ids.map fun id => Datum.ofObject id d)) d

/-- The objects below a receiver. -/
def contentsOf (a : Accessor) (d : Datum) : List ObjectId :=
  (d.value.object?.map a.allContents).getD []

/-- The services on texts. -/
def onTexts : List Service :=
  let edit (name : String) (f : TracedText → TracedText) : Service :=
    { name, signature := ⟨.text, [], .text⟩, run := fun _ d _ => .ok (withText d f) }
  [ edit "toUpperCase" TracedText.toUpper,
    edit "toLowerCase" TracedText.toLower,
    edit "toU1Case" TracedText.capitalize,
    edit "toL1Case" TracedText.uncapitalize,
    edit "trim" TracedText.trim,
    edit "indentSpace" (·.indentLines " " false),
    edit "indentTab" (·.indentLines "\t" false),
    { name := "substring", signature := ⟨.text, [.int], .text⟩
      run := fun _ d args => substring d (intArg args 0) none },
    { name := "substring", signature := ⟨.text, [.int, .int], .text⟩
      run := fun _ d args => substring d (intArg args 0) (some (intArg args 1)) },
    { name := "length", signature := ⟨.text, [], .int⟩
      run := fun _ d _ => .ok (Datum.ofInt (Int64.ofInt (textOf d).value.length) d) },
    { name := "startsWith", signature := ⟨.text, [.text], .bool⟩
      run := fun _ d args =>
        .ok (Datum.ofBool (Text.startsWith (textOf d).value (textArg args)) d) },
    { name := "endsWith", signature := ⟨.text, [.text], .bool⟩
      run := fun _ d args =>
        .ok (Datum.ofBool (Text.endsWith (textOf d).value (textArg args)) d) },
    { name := "indexOf", signature := ⟨.text, [.text], .int⟩
      run := fun _ d args => .ok (Datum.ofInt (indexOf (textOf d).value (textArg args)) d) },
    { name := "split", signature := ⟨.text, [.text], .list⟩
      run := fun _ d args => split d (textArg args) } ]

/-- The services on lists. -/
def onLists : List Service :=
  let item (d : Datum) (found : Option Item) : Except Failure Datum :=
    .ok ((found.map Traced.toDatum).getD (Datum.null d))
  [ { name := "nSize", signature := ⟨.list, [], .int⟩
      run := fun _ d _ => .ok (Datum.ofInt (Int64.ofInt (itemsOf d).items.length) d) },
    { name := "nFirst", signature := ⟨.list, [], .null⟩
      run := fun _ d _ => item d (itemsOf d).items.head? },
    { name := "nLast", signature := ⟨.list, [], .null⟩
      run := fun _ d _ => item d (itemsOf d).items.getLast? },
    { name := "nGet", signature := ⟨.list, [.int], .null⟩
      run := fun _ d args =>
        let index := (intArg args 0).toInt
        item d (if 0 ≤ index then (itemsOf d).items[index.toNat]? else none) },
    { name := "nReverse", signature := ⟨.list, [], .list⟩
      run := fun a d _ => .ok (Datum.ofList (collect a false (valuesOf d).reverse) d) },
    { name := "nMinimize", signature := ⟨.list, [], .list⟩
      run := fun a d _ => .ok (Datum.ofList (collect a true (valuesOf d)) d) },
    { name := "nContains", signature := ⟨.list, [.null], .bool⟩
      run := fun a d args =>
        let found := args.head?.any fun needle =>
          (valuesOf d).any fun value => value.value.equal a needle.value
        .ok (Datum.ofBool found d) },
    { name := "sep", signature := ⟨.list, [.text], .list⟩
      run := fun a d args =>
        let separator := args.head?.getD (Datum.ofString "" d)
        .ok (Datum.ofList (collect a false (separated separator (valuesOf d))) d) } ]

/-- The services on objects. -/
def onObjects : List Service :=
  [ { name := "eContainer", signature := ⟨.object, [], .object⟩
      run := fun a d _ =>
        match d.value.object?.bind a.parent with
        | some parent => .ok (Datum.ofObject parent d)
        | none => .ok (Datum.null d) },
    { name := "eContents", signature := ⟨.object, [], .list⟩
      run := fun a d _ => .ok (objects a d ((d.value.object?.map a.children).getD [])) },
    { name := "eAllContents", signature := ⟨.object, [], .list⟩
      run := fun a d _ => .ok (objects a d (contentsOf a d)) },
    { name := "eAllContents", signature := ⟨.object, [.text], .list⟩
      run := fun a d args =>
        .ok (objects a d ((contentsOf a d).filter (a.isKindOf · (textArg args)))) },
    { name := "eClass", signature := ⟨.object, [], .text⟩
      run := fun a d _ => .ok (Datum.ofString ((d.value.object?.bind a.typeOf).getD "") d) },
    { name := "filter", signature := ⟨.object, [.text], .object⟩
      run := fun a d args =>
        if d.value.object?.any (a.isKindOf · (textArg args)) then .ok d
        else .ok (Datum.null d) } ]

/-- The services that every script file sees. -/
def builtins : ServiceSet := ⟨"builtin", onTexts ++ onLists ++ onObjects⟩

end ModelText.Service
