/-
What a config file or the command line may switch on.
-/
import IcuMessage.Print
import IcuMessage.Json.Reader

namespace IcuMessage

structure Config where
  prettyPrint : Bool := false
  bundle : Bool := false
  deriving DecidableEq, Repr, Inhabited

namespace Config

open Json

/-- A switch is on when either says so: neither can switch it off. -/
def merge (a b : Config) : Config where
  prettyPrint := a.prettyPrint || b.prettyPrint
  bundle := a.bundle || b.bundle

def layout (config : Config) : Layout :=
  if config.prettyPrint then .pretty else .compact

def record : Record Reader Config Config where
  title := "struct PrinterConfig"
  fields :=
    [⟨"prettyPrint", (fun b config => { config with prettyPrint := b }) <$> Reader.bool⟩,
      ⟨"bundle", (fun b config => { config with bundle := b }) <$> Reader.bool⟩]
  start := {}
  finish _ config := .ok config

def read (source : String) : Except Error Config :=
  (Reader.record record).readAll source.toList

end Config

end IcuMessage
