import Pagewright.Php.Literal
import Pagewright.Template.Draft

/-!
# Layouts

A page hands markup to its layout in two ways. A section is captured under a name before the page
runs and shown by `@yield`. A stack collects what several `@push` put on it, the newest first, and
is shown by `@stack`.
-/

namespace Pagewright

namespace Directive

/-! ## Sections -/

/-- The fragment that captures a body as the section of a name. -/
def capture (name body : Text) : Text :=
  Php.tag "ob_start();" ++ "\n" ++ body ++ "\n"
    ++ Php.tag ("$sections[\"" ++ name ++ "\"] = ob_get_clean();")

/-- The capture of a region that has a name. -/
def sectionCapture (region : Region) : Option Text :=
  let name := region.args.bareName
  if name = [] then none else some (capture name region.body)

/-- The word that closes a section. -/
def sectionClose : Text := "@endsection"

/-- `@section(name)` up to `@endsection`, which leaves the content. -/
def sectionElements : List Element :=
  [.regions "section" sectionClose fun region => (sectionCapture region).map fun _ => []]

/-- The rule for `@section`. What leaves the content becomes a fragment that runs before it. -/
def sectionRule : Rule where
  name := "section"
  apply draft :=
    (Rewrite.ofElements sectionElements draft.content).map fun content =>
      { draft with
        content
        before := draft.before ++
          (Piece.values (Region.pieces "section" sectionClose draft.content)).filterMap
            sectionCapture }

/-- `@yield('name')`. -/
def yieldCall (call : Call) : Option Text :=
  call.args.unquote?.map fun name => Php.tag ("echo $sections[\"" ++ name ++ "\"] ?? \"\";")

/-- `@yield('name')`. -/
def yieldElements : List Element :=
  [.calls "yield" yieldCall]

/-- The rule for `@yield`. -/
def yieldRule : Rule :=
  .ofElements "yield" yieldElements

/-! ## Stacks -/

/-- The code that puts a value on top of a stack. -/
def pushValue (name value : Text) : Text :=
  Php.tag ("$stacks[\"" ++ name ++ "\"] = array_merge([" ++ value ++ "], $stacks[\"" ++ name
    ++ "\"] ?? []);")

/-- `@push(name, value)`. -/
def pushCall (call : Call) : Option Text := do
  let (name, value) ← call.args.splitFirst?
  let name := name.bareName
  if name = [] then none else some (pushValue name (Php.value value))

/-- `@push(name)` up to `@endpush`. -/
def pushBlock (block : Region) : Option Text :=
  let name := block.args.bareName
  if name = [] then none
  else some (Php.tag "ob_start();" ++ "\n" ++ block.body ++ "\n" ++ pushValue name "ob_get_clean()")

/-- The form of `@push` with a value. -/
def pushCalls : Element :=
  .calls "push" pushCall

/-- The form of `@push` with a block. -/
def pushRegions : Element :=
  .regions "push" "@endpush" pushBlock

/-- Both forms of `@push`, the one with a value first, so that it never opens a block. -/
def pushElements : List Element :=
  [pushCalls, pushRegions]

/-- The rule for `@push`. -/
def pushRule : Rule :=
  .ofElements "push" pushElements

/-- `@stack('name')`. -/
def stackCall (call : Call) : Option Text := do
  let name ← call.args.unquote?
  if name = [] then none
  else some (Php.tag ("echo join(\"\", $stacks[\"" ++ name ++ "\"] ?? []);"))

/-- `@stack('name')`. -/
def stackElements : List Element :=
  [.calls "stack" stackCall]

/-- The rule for `@stack`. -/
def stackRule : Rule :=
  .ofElements "stack" stackElements

end Directive

end Pagewright
