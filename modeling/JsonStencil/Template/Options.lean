/-!
# Template options

The delimiters of placeholders, the token that escapes them, and the mark of calls.
-/

namespace JsonStencil

structure TemplateOptions where
  left : String
  right : String
  escape : String
  sigil : String
  deriving DecidableEq, Repr

namespace TemplateOptions

def standard : TemplateOptions := ⟨"\x7b\x7b", "\x7d\x7d", "\\", "$"⟩

instance : Inhabited TemplateOptions := ⟨standard⟩

end TemplateOptions

end JsonStencil
