import UiMarkup.Schema.Registry

/-!
# What a schema file says

A schema file lists attribute sets and component kinds. All sets are taken in
before any kind, wherever they stand in the file.
-/

namespace UiMarkup

structure AttributeEntry where
  name : String
  typeName : String
  description : String
  required : Bool
  /-- The literal of the default. -/
  defaultRaw : Option String
deriving DecidableEq, Repr

structure SetEntry where
  name : String
  attributes : List AttributeEntry
deriving DecidableEq, Repr

structure ComponentEntry where
  kind : String
  description : String
  includes : List String
  attributes : List AttributeEntry
deriving DecidableEq, Repr

structure SchemaFile where
  name : Option String
  sets : List SetEntry
  components : List ComponentEntry
deriving DecidableEq, Repr

namespace AttributeEntry

def declare (e : AttributeEntry) : Except SchemaError Attribute := do
  let type ← AttributeType.ofName e.typeName
  let a := Attribute.plain e.name type e.description e.required
  match e.defaultRaw with
  | none => .ok a
  | some raw => a.withDefault raw

def declareAll : List AttributeEntry → Except SchemaError (List Attribute)
  | [] => .ok []
  | e :: es => do
    let a ← e.declare
    let as ← declareAll es
    .ok (a :: as)

end AttributeEntry

/-- The set that an entry describes. -/
def SetEntry.build (e : SetEntry) : Except SchemaError AttributeSet := do
  AttributeSet.ofList e.name (← AttributeEntry.declareAll e.attributes)

def Catalog.registerAll (c : Catalog) : List SetEntry → Except SchemaError Catalog
  | [] => .ok c
  | e :: es => do
    let c' ← c.register (← e.build)
    c'.registerAll es

def Registry.registerEntry (r : Registry) (e : ComponentEntry) : Except SchemaError Registry := do
  r.register e.kind e.description e.includes (← AttributeEntry.declareAll e.attributes)

def Registry.registerAll (r : Registry) : List ComponentEntry → Except SchemaError Registry
  | [] => .ok r
  | e :: es => do
    let r' ← r.registerEntry e
    r'.registerAll es

def SchemaFile.load (f : SchemaFile) : Except SchemaError Registry := do
  let catalog ← Catalog.empty.registerAll f.sets
  (Registry.ofCatalog catalog f.name).registerAll f.components

end UiMarkup
