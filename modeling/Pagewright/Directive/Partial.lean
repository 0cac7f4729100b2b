import Pagewright.Php.Literal
import Pagewright.Template.Draft

/-!
# Partials

`@include` runs another template in place. `@component` runs one with slots: values and blocks of
markup that are handed over as properties of `$slot`, the rest of the body being
`$slot->content`. `@set` gives the page itself a property.
-/

namespace Pagewright

namespace Directive

/-! ## Properties of the page -/

/-- `@set('key', e)`; the key has to be a quoted literal that is not empty. -/
def setCall (call : Call) : Option Text := do
  let (key, value) ← call.args.splitFirst?
  let key ← key.unquote?
  if key = [] then none else some (Php.tag ("$page->" ++ key ++ " = " ++ value ++ ";"))

/-- `@set('key', e)`. -/
def setElements : List Element :=
  [.calls "set" setCall]

/-- The rule for `@set`. -/
def setRule : Rule :=
  .ofElements "set" setElements

/-! ## Includes -/

/-- `@include(name)` and `@include(name, vars)`, for partials in `dir`. -/
def includeCall (dir up : Text) (call : Call) : Option Text :=
  let (name, vars) :=
    match call.args.splitFirst? with
    | some (name, vars) => (name, some vars)
    | none => (call.args.trim, none)
  if name = [] then none
  else
    let path := Php.filePath up dir name
    let found := "if (file_exists(" ++ path ++ ")) \x7b "
    match vars with
    | some vars =>
      some (Php.tag (found ++ "ob_start(); extract(" ++ vars ++ "); include " ++ path
        ++ "; echo ob_get_clean(); \x7d"))
    | none => some (Php.tag (found ++ "include " ++ path ++ "; \x7d"))

/-- `@include(name)` and `@include(name, vars)`. -/
def includeElements (dir up : Text) : List Element :=
  [.calls "include" (includeCall dir up)]

/-- The rule for `@include`. -/
def includeRule (dir : Text) : Rule :=
  .ofContent "include" fun up => .ofElements (includeElements dir up)

/-! ## Components -/

/-- A slot with a value: `@slot(name, value)`. -/
def slotValue (call : Call) : Option Text :=
  call.args.splitFirst?.map fun (name, value) =>
    Php.tag ("$slot->" ++ name.bareName ++ " = " ++ Php.value value ++ " ?? \"\";")

/-- A slot with a body: `@slot(name)` up to `@endslot`. -/
def slotBlock (block : Region) : Text :=
  Php.tag "ob_start();" ++ block.body
    ++ Php.tag ("$slot->" ++ block.args.bareName ++ " = ob_get_clean();")

/-- The code for one component. Slots with a value are taken out of the body first, so that they
never open a block. A component without a name is left alone. -/
def component (dir up : Text) (region : Region) : Option Text :=
  let name := region.args.trim
  if name.bareName = [] then none
  else
    let calls := Call.pieces "slot" region.body
    let values := (Piece.values calls).filterMap slotValue
    let body := Piece.rewrite (fun call => (slotValue call).map fun _ => []) calls
    let regions := Region.pieces "slot" "@endslot" body
    let blocks := (Piece.values regions).map slotBlock
    let content := Piece.rewrite (fun _ => some []) regions
    let path := Php.filePath up dir name
    let parts :=
      [Php.tag "ob_start();", Php.tag "$slot = (object) [];",
        Php.tag "ob_start();" ++ content ++ Php.tag "$slot->content = ob_get_clean();"]
      ++ values ++ blocks ++
      [Php.tag ("if (file_exists(" ++ path ++ ")) \x7b include " ++ path
        ++ "; echo ob_get_clean(); \x7d else \x7b ob_end_clean(); \x7d")]
    some (List.intercalate "\n" parts)

/-- Components with their bodies. -/
def componentRegions (dir up : Text) : Element :=
  .regions "component" "@endcomponent" (component dir up)

/-- `@component(name)` up to `@endcomponent`. -/
def componentElements (dir up : Text) : List Element :=
  [componentRegions dir up]

/-- The rule for `@component`. -/
def componentRule (dir : Text) : Rule :=
  .ofContent "component" fun up => .ofElements (componentElements dir up)

end Directive

end Pagewright
