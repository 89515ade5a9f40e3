/-!
# Text

Scripts, names and values are runs of code points. Every length, offset and column of the library
counts code points, so a text is a list of characters, on which a reader can recurse.
-/

namespace EnvScript

abbrev Text := List Char

end EnvScript
