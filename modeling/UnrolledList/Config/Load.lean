import UnrolledList.Config.Json
import UnrolledList.Config.Toml
import UnrolledList.Text.Utf8

/-!
# Finding settings

A text is read as TOML first and, if it is none, as JSON with comments; what is wrong with
it is what is wrong with it as JSON.

Settings come from **one** file: the one that was asked for, or else the first of two usual
ones that is there. There is no falling through. If the file that was asked for is not
there, or the chosen one cannot be read, the defaults hold.
-/

namespace UnrolledList

namespace Config

/-- The settings that a text gives. -/
def parse (text : List Char) : Except Json.ReadError Config :=
  match ofToml? text with
  | some config => .ok config
  | none => ofJson text

/-- The settings of a file, or the defaults if they cannot be read. -/
def ofFile (contents : Bytes) : Config :=
  match Utf8.decode? contents with
  | none => {}
  | some text =>
    match parse text with
    | .ok config => config
    | .error _ => {}

/-- The names of the usual files, in the order in which they are looked for. -/
def usualFiles : List String :=
  ["./quicklist_config.json", "./quicklist_config.toml"]

/-- **The settings in force**, given the file that was asked for and a way to look up the
contents of files. -/
def load (path : Option String) (contents : String → Option Bytes) : Config :=
  let candidates := match path with
    | some path => [path]
    | none => usualFiles
  match candidates.findSome? contents with
  | some file => ofFile file
  | none => {}

end Config

end UnrolledList
