import Pagewright.Proofs.Template.Passes

/-!
# Well-formed templates and what they stand for

A well-formed template is a list of items (`Template.Item`): plain text, directives and output tags
that stand on their own (`Template.Flat`), blocks that are pushed, components with their slots, and
sections. The parts of an item are well-formed by their types: a chunk of text holds no mark
(`Template.Chunk`), an expression ends at the parenthesis behind it and holds no directive
(`Template.Expr`).

Each item has the text that it is written as (`source`) and the PHP that it stands for (`php`). The
PHP is given item by item, without a look at what stands around the item. Both texts are built
around the ones of the flat items, which are a parameter, since an item that encloses others is
rewritten at another time than they are.
-/

namespace Pagewright

open Text

namespace Template

/-! ## Well-formed parts -/

/-- Plain text: no directive, no output tag and no PHP tag starts in it. -/
structure Chunk where
  text : Text
  no_at : '@' ∉ text
  no_brace : '\x7b' ∉ text
  no_tag : ¬("<?" : Text) <:+: text
  last_ne : text.getLast? ≠ some '<'

/-- Letters, digits and underscores, hyphens and dots. -/
def isNameLetter (c : Char) : Bool :=
  isWordChar c || c = '-' || c = '.'

/-- The name of a section, a stack, a slot, a property or a partial. -/
structure Name where
  text : Text
  ne_nil : text ≠ []
  letters : text.all isNameLetter = true

/-- An expression among the arguments of a directive. -/
structure Expr where
  text : Text
  balanced : Balanced text
  free : DirectiveFree text

/-- What a loop goes through and the variables that it binds; the first ` as ` stands between the
two. -/
structure Clause where
  source : Text
  binding : Text
  balanced : Balanced (source ++ " as " ++ binding)
  free : DirectiveFree (source ++ " as " ++ binding)
  first : ¬(" as " : Text) <:+: source ++ (" as" : Text)

/-- The expression of an output tag that ends in `close`. -/
structure Shown (close : Text) where
  text : Text
  enclosed : Output.Enclosed close text
  free : DirectiveFree text

/-! ## Items -/

/-- What may stand anywhere: plain text, directives that enclose nothing, and output tags. -/
inductive Flat where
  | chunk (c : Chunk)
  /-- `@if(e)` -/
  | ifThen (e : Expr)
  /-- `@elseif(e)` -/
  | elseIf (e : Expr)
  /-- `@unless(e)` -/
  | ifNot (e : Expr)
  /-- `@empty(e)` -/
  | empty (e : Expr)
  /-- `@endif` -/
  | endIf
  /-- `@endunless` -/
  | endUnless
  /-- `@endempty` -/
  | endEmpty
  /-- `@for(e)` -/
  | forLoop (e : Expr)
  /-- `@while(e)` -/
  | whileLoop (e : Expr)
  /-- `@foreach(s as b)` -/
  | foreach (c : Clause)
  /-- `@break(e)` -/
  | breakIf (e : Expr)
  /-- `@continue(e)` -/
  | continueIf (e : Expr)
  /-- `@break` at the end of a line. -/
  | breakLine
  /-- `@continue` at the end of a line. -/
  | continueLine
  /-- `@else` at the end of a line. -/
  | elseLine
  /-- `@endfor` at the end of a line. -/
  | endFor
  /-- `@endforeach` at the end of a line. -/
  | endForeach
  /-- `@endwhile` at the end of a line. -/
  | endWhile
  /-- `@set('n', e)` -/
  | set (n : Name) (e : Expr)
  /-- `@include('n')` -/
  | includeFile (n : Name)
  /-- `@include('n', e)` -/
  | includeWith (n : Name) (e : Expr)
  /-- `@push('n', e)` -/
  | push (n : Name) (e : Expr)
  /-- `@stack('n')` -/
  | stack (n : Name)
  /-- `@yield('n')` -/
  | yield (n : Name)
  /-- `{!! e !!}` -/
  | raw (e : Shown "!!\x7d")
  /-- `{{ e }}` -/
  | echo (e : Shown "\x7d\x7d")

/-- What may stand in a component. -/
inductive Part where
  | flat (f : Flat)
  /-- `@slot('n', e)` -/
  | slot (n : Name) (e : Expr)
  /-- `@slot('n')`, a body and `@endslot`. -/
  | slotBlock (n : Name) (body : List Flat)

/-- What may stand in a section. -/
inductive Inner where
  | flat (f : Flat)
  /-- `@push('n')`, a body and `@endpush`. -/
  | push (n : Name) (body : List Flat)
  /-- `@component('n')`, its parts and `@endcomponent`. -/
  | component (n : Name) (parts : List Part)

/-- What a template is made of. -/
inductive Item where
  | inner (i : Inner)
  /-- `@section('n')`, a body and `@endsection`. -/
  | sect (n : Name) (body : List Inner)

/-! ## Sources -/

/-- The arguments `'n', e`. -/
def named (n : Name) (e : Expr) : Text :=
  quoted n.text ++ ", " ++ e.text

/-- The mark that a flat item is. -/
def Flat.mark : Flat → Mark
  | chunk c => .text c.text
  | ifThen e => .call "if" e.text
  | elseIf e => .call "elseif" e.text
  | ifNot e => .call "unless" e.text
  | empty e => .call "empty" e.text
  | endIf => .close "endif"
  | endUnless => .close "endunless"
  | endEmpty => .close "endempty"
  | forLoop e => .call "for" e.text
  | whileLoop e => .call "while" e.text
  | foreach c => .call "foreach" (c.source ++ " as " ++ c.binding)
  | breakIf e => .call "break" e.text
  | continueIf e => .call "continue" e.text
  | breakLine => .line "break"
  | continueLine => .line "continue"
  | elseLine => .line "else"
  | endFor => .line "endfor"
  | endForeach => .line "endforeach"
  | endWhile => .line "endwhile"
  | set n e => .call "set" (named n e)
  | includeFile n => .call "include" (quoted n.text)
  | includeWith n e => .call "include" (named n e)
  | push n e => .call "push" (named n e)
  | stack n => .call "stack" (quoted n.text)
  | yield n => .call "yield" (quoted n.text)
  | raw e => .raw e.text
  | echo e => .echo e.text

/-- A flat item as it is written. -/
def Flat.source (f : Flat) : Text :=
  f.mark.source

section Written

variable (written : Flat → Text)

/-- `@word('n')`, a body and `@endword`. -/
def enclosed (word : Text) (n : Name) (body : Text) : Text :=
  (Mark.call word (quoted n.text)).source ++ body ++ (Mark.close ("end" ++ word)).source

/-- A part of a component as it is written, with what stands for its flat items. -/
def Part.source : Part → Text
  | flat f => written f
  | slot n e => (Mark.call "slot" (named n e)).source
  | slotBlock n body => enclosed "slot" n (body.flatMap written)

/-- An item of a section as it is written. -/
def Inner.source : Inner → Text
  | flat f => written f
  | push n body => enclosed "push" n (body.flatMap written)
  | component n parts => enclosed "component" n (parts.flatMap (Part.source written))

end Written

/-- An item as it is written, with what stands for the items of sections. -/
def Item.source (written : Inner → Text) : Item → Text
  | inner i => written i
  | sect n body => enclosed "section" n (body.flatMap written)

/-- A template as it is written. -/
def source (items : List Item) : Text :=
  items.flatMap (Item.source (Inner.source Flat.source))

/-! ## Translation -/

/-- What a translation depends on beside the template. -/
structure Target where
  /-- The way from the page up to the root of the site. -/
  up : Text
  /-- The directory of the partials. -/
  dir : Text
  /-- Whether `{{ }}` escapes its output. -/
  safe : Bool

namespace Target

variable (target : Target)

/-- The file of a partial: its name holds dots between directories. -/
def file (n : Name) : Text :=
  "dirname(__FILE__) . \"" ++ target.up ++ "/" ++ target.dir ++ "/"
    ++ (n.text.map fun c => if c = '.' then '/' else c) ++ ".php\""

end Target

/-- The head of a loop, trimmed around its first ` as `. -/
def loopClause (e : Text) : Text :=
  match e.cut? " as " with
  | some (source, binding) => source.trim ++ " as " ++ binding.trim
  | none => e.trim

/-- The code that puts a value on top of a stack. -/
def onStack (n : Name) (value : Text) : Text :=
  "$stacks[\"" ++ n.text ++ "\"] = array_merge([" ++ value ++ "], $stacks[\"" ++ n.text
    ++ "\"] ?? []);"

/-- The PHP that a flat item stands for. -/
def Flat.php (target : Target) : Flat → Text
  | chunk c => c.text
  | ifThen e => Php.tag ("if (" ++ e.text ++ ") :")
  | elseIf e => Php.tag ("elseif (" ++ e.text ++ ") :")
  | ifNot e => Php.tag ("if (!(" ++ e.text ++ ")) :")
  | empty e => Php.tag ("if (empty(" ++ e.text ++ ") || !(" ++ e.text ++ ")) :")
  | endIf => Php.tag "endif;"
  | endUnless => Php.tag "endif;"
  | endEmpty => Php.tag "endif;"
  | forLoop e => Php.tag ("for (" ++ loopClause e.text ++ ") :")
  | whileLoop e => Php.tag ("while (" ++ loopClause e.text ++ ") :")
  | foreach c => Php.tag ("foreach (" ++ c.source.trim ++ " as " ++ c.binding.trim ++ ") :")
  | breakIf e => Php.tag ("if (" ++ e.text ++ ") \x7b break; \x7d")
  | continueIf e => Php.tag ("if (" ++ e.text ++ ") \x7b continue; \x7d")
  | breakLine => Php.tag "break;" ++ "\n"
  | continueLine => Php.tag "continue;" ++ "\n"
  | elseLine => Php.tag "else :" ++ "\n"
  | endFor => Php.tag "endfor;" ++ "\n"
  | endForeach => Php.tag "endforeach;" ++ "\n"
  | endWhile => Php.tag "endwhile;" ++ "\n"
  | set n e => Php.tag ("$page->" ++ n.text ++ " = " ++ e.text.trim ++ ";")
  | includeFile n =>
    Php.tag ("if (file_exists(" ++ target.file n ++ ")) \x7b include " ++ target.file n ++ "; \x7d")
  | includeWith n e =>
    Php.tag ("if (file_exists(" ++ target.file n ++ ")) \x7b ob_start(); extract(" ++ e.text.trim
      ++ "); include " ++ target.file n ++ "; echo ob_get_clean(); \x7d")
  | push n e => Php.tag (onStack n (Php.value e.text.trim))
  | stack n => Php.tag ("echo join(\"\", $stacks[\"" ++ n.text ++ "\"] ?? []);")
  | yield n => Php.tag ("echo $sections[\"" ++ n.text ++ "\"] ?? \"\";")
  | raw e => Php.tag ("echo " ++ Output.coalesce e.text.trim ++ ";")
  | echo e =>
    let value := Output.coalesce (e.text.trim ++ " or \"\"")
    Php.tag
      (if target.safe then "echo htmlspecialchars(" ++ value ++ ", ENT_QUOTES, 'UTF-8', false);"
        else "echo " ++ value ++ ";")

section Written

variable (target : Target) (written : Flat → Text)

/-- A part in the content of its component: slots are taken out of it. -/
def Part.content : Part → Text
  | flat f => written f
  | slot _ _ => []
  | slotBlock _ _ => []

/-- The line for a slot with a value. -/
def Part.valueLine : Part → Text
  | flat _ => []
  | slot n e =>
    Php.tag ("$slot->" ++ n.text ++ " = " ++ Php.value e.text.trim ++ " ?? \"\";") ++ "\n"
  | slotBlock _ _ => []

/-- The line for a slot with a body. -/
def Part.blockLine : Part → Text
  | flat _ => []
  | slot _ _ => []
  | slotBlock n body =>
    Php.tag "ob_start();" ++ body.flatMap written
      ++ Php.tag ("$slot->" ++ n.text ++ " = ob_get_clean();") ++ "\n"

/-- The PHP of a component: its content, the slots with a value, the slots with a body, each in
their order, and the partial that shows them. -/
def componentPhp (n : Name) (parts : List Part) : Text :=
  Php.tag "ob_start();" ++ "\n" ++ Php.tag "$slot = (object) [];" ++ "\n"
    ++ Php.tag "ob_start();" ++ parts.flatMap (Part.content written)
    ++ Php.tag "$slot->content = ob_get_clean();" ++ "\n"
    ++ parts.flatMap Part.valueLine ++ parts.flatMap (Part.blockLine written)
    ++ Php.tag ("if (file_exists(" ++ target.file n ++ ")) \x7b include " ++ target.file n
      ++ "; echo ob_get_clean(); \x7d else \x7b ob_end_clean(); \x7d")

/-- The PHP that captures a body and then runs `code`. -/
def captured (body code : Text) : Text :=
  Php.tag "ob_start();" ++ "\n" ++ body ++ "\n" ++ Php.tag code

/-- The PHP that an item of a section stands for. -/
def Inner.php : Inner → Text
  | flat f => written f
  | push n body => captured (body.flatMap written) (onStack n "ob_get_clean()")
  | component n parts => componentPhp target written n parts

end Written

/-- What an item leaves in the content: sections leave nothing. -/
def Item.content (written : Inner → Text) : Item → Text
  | inner i => written i
  | sect _ _ => []

/-- What an item runs before the content: the capture of a section. -/
def Item.before (written : Inner → Text) : Item → List Text
  | inner _ => []
  | sect n body =>
    [captured (body.flatMap written) ("$sections[\"" ++ n.text ++ "\"] = ob_get_clean();")]

/-- The PHP that a template leaves in the content. -/
def content (target : Target) (items : List Item) : Text :=
  items.flatMap (Item.content (Inner.php target (Flat.php target)))

/-- The fragments that run before the content of a template. -/
def before (target : Target) (items : List Item) : List Text :=
  items.flatMap (Item.before (Inner.php target (Flat.php target)))

/-! ## Well-formed parts hold no directive -/

theorem Name.ne_of_mem {n : Name} {c d : Char} (hc : c ∈ n.text) (hd : isNameLetter d = false) :
    c ≠ d := by
  rintro rfl
  have := List.all_eq_true.1 n.letters c hc
  rw [hd] at this
  exact Bool.false_ne_true this

/-- A name has no quotes and no backslashes. -/
theorem Name.isPlain (n : Name) : n.text.isPlain = true := by
  refine List.all_eq_true.2 fun c hc => ?_
  have hsingle : c ≠ '\'' := ne_of_mem hc (by decide)
  have hdouble : c ≠ '"' := ne_of_mem hc (by decide)
  have hback : c ≠ '\\' := ne_of_mem hc (by decide)
  simp [isQuote, hsingle, hdouble, hback]

/-- A name opens nothing, whatever follows. -/
theorem Name.quiet (n : Name) : Quiet n.text :=
  quiet_of_forall fun _ hc => ⟨ne_of_mem hc (by decide), ne_of_mem hc (by decide)⟩

theorem Name.quiet_quoted (n : Name) : Quiet (quoted n.text) :=
  Quiet.append (a := ['\'']) (quiet_of_isHarmless rfl) (n.quiet.append (quiet_of_isHarmless rfl))

/-- A quoted name and an expression are a balanced list of arguments. -/
theorem balanced_named (n : Name) (e : Expr) : Balanced (named n e) :=
  e.balanced.quoted_append n.isPlain

/-- A quoted name and an expression hold no directive. -/
theorem free_named (n : Name) (e : Expr) : DirectiveFree (named n e) :=
  along_append.2 ⟨(n.quiet_quoted.append (quiet_of_isHarmless rfl)) _, e.free⟩

/-- A chunk of text opens nothing, whatever follows. -/
theorem Chunk.quiet (c : Chunk) : Quiet c.text :=
  quiet_of_forall fun _ hd =>
    ⟨fun h => c.no_at (h ▸ hd), fun h => c.no_brace (h ▸ hd)⟩

/-- The mark of a flat item is sound. -/
theorem Flat.sound_mark (f : Flat) : f.mark.Sound := by
  cases f with
  | chunk c => exact c.quiet
  | ifThen e => exact ⟨rfl, e.balanced, e.free⟩
  | elseIf e => exact ⟨rfl, e.balanced, e.free⟩
  | ifNot e => exact ⟨rfl, e.balanced, e.free⟩
  | empty e => exact ⟨rfl, e.balanced, e.free⟩
  | endIf => rfl
  | endUnless => rfl
  | endEmpty => rfl
  | forLoop e => exact ⟨rfl, e.balanced, e.free⟩
  | whileLoop e => exact ⟨rfl, e.balanced, e.free⟩
  | foreach c => exact ⟨rfl, c.balanced, c.free⟩
  | breakIf e => exact ⟨rfl, e.balanced, e.free⟩
  | continueIf e => exact ⟨rfl, e.balanced, e.free⟩
  | breakLine => rfl
  | continueLine => rfl
  | elseLine => rfl
  | endFor => rfl
  | endForeach => rfl
  | endWhile => rfl
  | set n e => exact ⟨rfl, balanced_named n e, free_named n e⟩
  | includeFile n => exact ⟨rfl, balanced_quoted n.isPlain, n.quiet_quoted.directiveFree⟩
  | includeWith n e => exact ⟨rfl, balanced_named n e, free_named n e⟩
  | push n e => exact ⟨rfl, balanced_named n e, free_named n e⟩
  | stack n => exact ⟨rfl, balanced_quoted n.isPlain, n.quiet_quoted.directiveFree⟩
  | yield n => exact ⟨rfl, balanced_quoted n.isPlain, n.quiet_quoted.directiveFree⟩
  | raw e => exact e.free
  | echo e => exact e.free

/-! ## Translations hold no directive -/

/-- The way up and the directory of the partials hold no directive. -/
structure Target.Sound (target : Target) : Prop where
  up_free : DirectiveFree target.up
  dir_free : DirectiveFree target.dir

/-- An expression between quiet pieces of code opens nothing if the second one stops it. -/
theorem quiet_around {a e b : Text} (ha : Quiet a) (he : DirectiveFree e) (hb : isHarmless b = true)
    (hs : Stops b) : Quiet (a ++ e ++ b) := by
  rw [List.append_assoc]
  exact ha.append (he.quiet_append hs (quiet_of_isHarmless hb))

theorem quiet_tag {code : Text} (h : Quiet code) : Quiet (Php.tag code) :=
  ((quiet_of_isHarmless rfl).append h).append (quiet_of_isHarmless rfl)

/-- A clause is cut at its `as`. -/
theorem cut?_clause (c : Clause) :
    (c.source ++ " as " ++ c.binding).cut? " as " = some (c.source, c.binding) := by
  rw [List.append_assoc]
  exact cut?_append (by decide) (along_of_not_isInfix " as" ' ' c.first _)

theorem free_as {s b : Text} (hs : DirectiveFree s) (hb : DirectiveFree b) :
    DirectiveFree (s.trim ++ " as " ++ b.trim) := by
  have hstops : Stops (" as " ++ b.trim) := Stops.append (by decide) _
  rw [List.append_assoc]
  exact along_append.2 ⟨(hs.of_infix (trim_isInfix s)).along (by simpa using hstops),
    along_append.2 ⟨quiet_of_isHarmless rfl _, hb.of_infix (trim_isInfix b)⟩⟩

/-- What becomes of a clause holds no directive. -/
theorem free_loopClause {e : Text} (h : DirectiveFree e) : DirectiveFree (loopClause e) := by
  unfold loopClause
  split
  case h_1 s b hcut =>
    have heq := eq_append_of_cut? hcut
    exact free_as (h.of_infix ⟨[], " as " ++ b, by simp [heq]⟩)
      (h.of_infix ⟨s ++ " as ", [], by simp [heq]⟩)
  case h_2 => exact h.of_infix (trim_isInfix e)

/-- The code that pushes a value is quiet. -/
theorem quiet_onStack (n : Name) {value : Text} (h : DirectiveFree value) :
    Quiet (onStack n value) :=
  have hstart : Quiet ("$stacks[\"" ++ n.text ++ "\"] = array_merge([") :=
    ((quiet_of_isHarmless rfl).append n.quiet).append (quiet_of_isHarmless rfl)
  ((quiet_around hstart h rfl (by decide)).append n.quiet).append (quiet_of_isHarmless rfl)

/-- The code for a file of the site is quiet. -/
theorem Target.Sound.quiet_file {target : Target} (h : target.Sound) (n : Name) :
    Quiet (target.file n) := by
  have hname : Quiet (n.text.map fun c => if c = '.' then '/' else c) := by
    refine quiet_of_forall fun c hc => ?_
    obtain ⟨d, hd, rfl⟩ := List.mem_map.1 hc
    split
    · decide
    · exact ⟨Name.ne_of_mem hd (by decide), Name.ne_of_mem hd (by decide)⟩
  have hopening : Quiet "dirname(__FILE__) . \"" := quiet_of_isHarmless rfl
  have hup := quiet_around hopening h.up_free (b := "/") rfl (by decide)
  exact ((quiet_around hup h.dir_free rfl (by decide)).append hname).append
    (quiet_of_isHarmless rfl)

/-- The code for a flat item opens nothing, whatever follows. -/
theorem Flat.quiet_php {target : Target} (h : target.Sound) (f : Flat) : Quiet (f.php target) := by
  have hline : Quiet "\n" := quiet_of_isHarmless rfl
  have htrim : ∀ e : Expr, DirectiveFree e.text.trim := fun e => e.free.of_infix (trim_isInfix _)
  have hfound : ∀ n, Quiet ("if (file_exists(" ++ target.file n) :=
    fun n => (quiet_of_isHarmless rfl).append (h.quiet_file n)
  cases f with
  | chunk c => exact c.quiet
  | ifThen e => exact quiet_tag (quiet_around (quiet_of_isHarmless rfl) e.free rfl (by decide))
  | elseIf e => exact quiet_tag (quiet_around (quiet_of_isHarmless rfl) e.free rfl (by decide))
  | ifNot e => exact quiet_tag (quiet_around (quiet_of_isHarmless rfl) e.free rfl (by decide))
  | empty e =>
    exact quiet_tag (quiet_around (quiet_around (quiet_of_isHarmless rfl) e.free rfl (by decide))
      e.free rfl (by decide))
  | endIf => exact quiet_of_isHarmless rfl
  | endUnless => exact quiet_of_isHarmless rfl
  | endEmpty => exact quiet_of_isHarmless rfl
  | forLoop e =>
    exact quiet_tag
      (quiet_around (quiet_of_isHarmless rfl) (free_loopClause e.free) rfl (by decide))
  | whileLoop e =>
    exact quiet_tag
      (quiet_around (quiet_of_isHarmless rfl) (free_loopClause e.free) rfl (by decide))
  | foreach c =>
    have hs : DirectiveFree c.source := c.free.of_infix ⟨[], " as " ++ c.binding, by simp⟩
    have hb : DirectiveFree c.binding := c.free.of_infix ⟨c.source ++ " as ", [], by simp⟩
    have := quiet_tag (quiet_around (a := "foreach (") (b := ") :") (quiet_of_isHarmless rfl)
      (free_as hs hb) rfl (by decide))
    simpa [Flat.php] using this
  | breakIf e => exact quiet_tag (quiet_around (quiet_of_isHarmless rfl) e.free rfl (by decide))
  | continueIf e => exact quiet_tag (quiet_around (quiet_of_isHarmless rfl) e.free rfl (by decide))
  | breakLine => exact quiet_of_isHarmless rfl
  | continueLine => exact quiet_of_isHarmless rfl
  | elseLine => exact quiet_of_isHarmless rfl
  | endFor => exact quiet_of_isHarmless rfl
  | endForeach => exact quiet_of_isHarmless rfl
  | endWhile => exact quiet_of_isHarmless rfl
  | set n e =>
    exact quiet_tag (quiet_around (((quiet_of_isHarmless rfl).append n.quiet).append
      (quiet_of_isHarmless rfl)) (htrim e) rfl (by decide))
  | includeFile n =>
    exact quiet_tag ((((hfound n).append (quiet_of_isHarmless rfl)).append (h.quiet_file n)).append
      (quiet_of_isHarmless rfl))
  | includeWith n e =>
    exact quiet_tag (((quiet_around ((hfound n).append (quiet_of_isHarmless rfl)) (htrim e) rfl
      (by decide)).append (h.quiet_file n)).append (quiet_of_isHarmless rfl))
  | push n e => exact quiet_tag (quiet_onStack n (htrim e).value)
  | stack n =>
    exact quiet_tag (((quiet_of_isHarmless rfl).append n.quiet).append (quiet_of_isHarmless rfl))
  | yield n =>
    exact quiet_tag (((quiet_of_isHarmless rfl).append n.quiet).append (quiet_of_isHarmless rfl))
  | raw e =>
    exact quiet_tag (quiet_around (quiet_of_isHarmless rfl)
      (e.free.of_infix (trim_isInfix _)).coalesce rfl (by decide))
  | echo e =>
    have hvalue : DirectiveFree (Output.coalesce (e.text.trim ++ " or \"\"")) :=
      DirectiveFree.coalesce ((e.free.of_infix (trim_isInfix _)).quiet_append (by decide)
        (quiet_of_isHarmless rfl)).directiveFree
    refine quiet_tag ?_
    split
    · exact quiet_around (quiet_of_isHarmless rfl) hvalue rfl (by decide)
    · exact quiet_around (quiet_of_isHarmless rfl) hvalue rfl (by decide)

end Template

end Pagewright
