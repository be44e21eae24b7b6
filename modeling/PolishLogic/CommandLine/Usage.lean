/-! # Usage and help texts -/

namespace PolishLogic
namespace CommandLine

def program : String := "run_nnf.py"

/-- The formula that is converted when none is given. -/
def defaultFormula : String := "AB&!"

def usage : String :=
  "usage: " ++ program ++ " [-h] [-f FORMULA_FILE] [-v] [--debug] [--show-variables]\n" ++
  "                  [formula]\n"

def usageError (message : String) : String := usage ++ program ++ ": error: " ++ message ++ "\n"

def help : String :=
  usage ++ "\n" ++
  "Nega RPN formula to Negation Normal Form converter\n" ++
  "\n" ++
  "positional arguments:\n" ++
  "  formula               RPN formula to convert (default: " ++ defaultFormula ++ ")\n" ++
  "\n" ++
  "options:\n" ++
  "  -h, --help            show this help message and exit\n" ++
  "  -f FORMULA_FILE, --formula-file FORMULA_FILE\n" ++
  "                        Read the formula from a file\n" ++
  "  -v, --verbose         Enable verbose output\n" ++
  "  --debug               Enable debug output (overrides --verbose)\n" ++
  "  --show-variables      List the variables used by the formula\n" ++
  "\n" ++
  "Examples:\n" ++
  "  python " ++ program ++ " \"AB&!\"\n" ++
  "  python " ++ program ++ " \"AB=\" -v\n" ++
  "  python " ++ program ++ " -f formula.rpn --debug\n" ++
  "\n" ++
  "Formula syntax (postfix):\n" ++
  "  0 1        constants\n" ++
  "  A-Z        variables\n" ++
  "  !          not\n" ++
  "  & | ^ = >  and, or, xor, xnor, imply\n" ++
  "        \n"

end CommandLine
end PolishLogic
