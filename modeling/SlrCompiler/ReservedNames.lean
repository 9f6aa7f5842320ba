/-! # Reserved names

    Every grammar has four symbols or marks that no specification declares.
-/

namespace SlrCompiler

/-- The left side of the augmenting rule. -/
def acceptName : String := "$accept"

/-- The terminal that stands for the end of the input. -/
def endName : String := "$end"

/-- The terminal that generated parsers use for error recovery. -/
def errorName : String := "error"

/-- How an empty right side is shown. -/
def emptyMark : String := "ϵ"

end SlrCompiler
