import ModelText.Value.Equality

/-!
# Accumulating values

The results of the statements of a body are appended to one another. Values that are no text make a list,
which refuses what it already holds when it is a unique one, and a text turns the whole into text. The issues
of what is appended move with its text.
-/

namespace ModelText

/-- Adds an item; a unique list refuses one that is equal to an earlier item. -/
def ItemList.push (a : Accessor) (l : ItemList) (item : Item) : ItemList :=
  if l.unique && l.items.any (fun earlier => earlier.value.equal a item.value) then l
  else { l with items := l.items ++ [item] }

/-- Adds a value: a scalar as an item, a list by its items. -/
def ItemList.pushDatum (a : Accessor) (l : ItemList) (d : Datum) : ItemList :=
  match d.value with
  | .scalar s => l.push a (d.with s)
  | .list other => other.items.foldl (ItemList.push a) l

namespace Datum

/-- Concatenates the texts of two values. -/
def appendText (a : Accessor) (d : Datum) (item : Item) : Datum :=
  let text := d.toText a
  let other := item.value.toText a item.container item.origin
  (d.with (Value.scalar (.text (text.append other)))).addIssues text.size item.log

/-- Appends a scalar. Null adds nothing but its issues, null before it is replaced by it, and a list
takes it in as an item unless it is a text. -/
def appendItem (a : Accessor) (d : Datum) (item : Item) : Datum :=
  match d.value, item.value with
  | _, .null => d.addIssues 0 item.log
  | _, .text _ => d.appendText a item
  | .scalar .null, s =>
    { item.with (Value.scalar s) with log := d.log ++ shiftIssues 0 item.log }
  | .list l, _ =>
    (d.with (Value.list (l.push a { item with log := [] }))).addIssues 0 item.log
  | _, _ => d.appendText a item

/-- Appends a value. A list replaces null and is otherwise appended item by item. -/
def append (a : Accessor) (d other : Datum) : Datum :=
  match d.value, other.value with
  | _, .scalar s => d.appendItem a (other.with s)
  | .scalar .null, .list l =>
    { other with value := .list l, log := d.log ++ shiftIssues 0 other.log }
  | _, .list l => l.items.foldl (appendItem a) (d.addIssues 0 other.log)

end Datum

end ModelText
