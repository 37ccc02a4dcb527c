import UiMarkup.Schema.File

/-!
# The built-in schema

Buttons and plain boxes, for use where no schema is given.
-/

namespace UiMarkup

namespace Builtin

def background : SetEntry :=
  ⟨"Background",
    [⟨"color", "color", "Fill color", false, none⟩,
      ⟨"color-hovering", "color", "Fill color while the pointer is over the component", false,
        none⟩,
      ⟨"border-radius", "float", "Corner radius in pixels", false, some "0.0"⟩]⟩

def button : ComponentEntry :=
  ⟨"button", "Clickable button with a text label", ["Background"],
    [⟨"text", "string", "Label text", false, none⟩,
      ⟨"text-color", "color", "Label color", false, some "#000000"⟩,
      ⟨"on-pressed", "event", "Event raised when the button is pressed", false, none⟩]⟩

def container : ComponentEntry :=
  ⟨"container", "Plain box holding other components", ["Background"], []⟩

def file : SchemaFile := ⟨some "builtin", [background], [button, container]⟩

end Builtin

def Registry.builtin : Registry :=
  match Builtin.file.load with
  | .ok registry => registry
  | .error _ => .empty

end UiMarkup
