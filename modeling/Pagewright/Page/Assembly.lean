import Pagewright.Compiler
import Pagewright.Json.Writer

/-!
# The program of a page

A compiled page becomes a PHP program of its own: it reads the settings, sets up the variables of
the request, loads the plugins and data of the site, runs the fragments before the content, captures
the content, and runs the fragments behind it, the last of which shows the layout
(`Assembly.program`).
-/

namespace Pagewright

namespace Assembly

/-- What a page knows about itself besides its text. -/
structure Facts where
  url : Text
  /-- When the template was last changed, in seconds. -/
  modified : Nat
  /-- A function that the whole output is passed through. -/
  buffer : Option Text := none
  dirs : Conventions := {}

/-- The code that sets up the variables of the request. -/
def requestCode : Text :=
  "$segments = explode(\"/\", preg_replace(\"/^\\\\/|\\\\/$/\", \"\", "
    ++ "parse_url($_SERVER[\"REQUEST_URI\"])[\"path\"])); "
    ++ "$segment = (object) [\"one\" => \"\", \"two\" => \"\", \"three\" => \"\", "
    ++ "\"four\" => \"\", \"five\" => \"\", \"six\" => \"\"]; "
    ++ "array_map(function ($value, $key) use ($segment) \x7b "
    ++ "$target = [\"one\", \"two\", \"three\", \"four\", \"five\", \"six\"][$key] ?? null; "
    ++ "if ($target) \x7b $segment->$target = $value; \x7d \x7d, "
    ++ "$segments, array_keys($segments)); "
    ++ "$segments = join(\"/\", $segments); "
    ++ "$post = (object) $_POST; $get = (object) $_GET; "
    ++ "$server = (object) array_change_key_case($_SERVER); "
    ++ "$sections = []; $stacks = [];"

/-- The settings as they stand in the program. No part of them opens PHP. -/
def settingsText (settings : Settings) : Text :=
  settings.json.replace "<?" "\\u003c?"

/-- An address inside a double-quoted literal. -/
def quotedUrl (url : Text) : Text :=
  url.flatMap fun c => if c = '\\' || c = '"' || c = '$' then ['\\', c] else [c]

/-- The code that loads every file of a directory of the site. -/
def loadEach (up dir file body : Text) : Text :=
  "foreach (glob(dirname(__FILE__) . \"" ++ up ++ "/" ++ dir ++ "/*.php\") as " ++ file
    ++ ") \x7b " ++ body ++ " \x7d"

/-- The code that makes the data files of the site variables of the page. -/
def dataCode : Text :=
  "$label = basename($filename, \".php\"); if (!isset($$label)) \x7b "
    ++ "$contents = include $filename; $$label = json_decode(json_encode($contents)); \x7d"

/-- The fragment that captures the content. -/
def contentFragment (content : Text) : Text :=
  Php.tag "ob_start();" ++ "\n" ++ content ++ "\n"
    ++ Php.tag "$sections[\"content\"] = ob_get_clean();"

/-- The fragment that shows the layout of the page, or the content where there is none. -/
def layoutFragment (draft : Draft) (dirs : Conventions) : Text :=
  match (draft.settings.text? "layout").filter fun layout => layout.trim ≠ [] with
  | some layout =>
    Php.tag ("include " ++ Php.filePath draft.relativePath dirs.layouts layout ++ ";")
  | none => Php.tag "echo $sections[\"content\"];"

/-- The parts of the program, in order. -/
def parts (draft : Draft) (facts : Facts) : List Text :=
  (if facts.buffer.isSome then [Php.tag "ob_start();"] else [])
    ++ [Php.tag "ob_start();" ++ settingsText draft.settings
        ++ Php.tag "$page = json_decode(ob_get_clean());",
      "<?php " ++ requestCode ++ " $page->url = \"" ++ quotedUrl facts.url
        ++ "\"; $page->modified = " ++ Json.ofInt facts.modified ++ ";",
      loadEach draft.relativePath facts.dirs.plugins "$plugin" "include $plugin;",
      loadEach draft.relativePath facts.dirs.data "$filename" dataCode,
      "?>"]
    ++ draft.before
    ++ [contentFragment draft.content]
    ++ draft.after
    ++ [layoutFragment draft facts.dirs]
    ++ (facts.buffer.map fun buffer => Php.tag ("echo " ++ buffer ++ "(ob_get_clean());")).toList

/-- The program of a compiled page. -/
def program (draft : Draft) (facts : Facts) : Text :=
  List.intercalate "\n" (parts draft facts)

end Assembly

end Pagewright
