/-!
# What the command line shows about itself

The usage lines, the help text and the line about a wrong command.
-/
namespace GrammarOutline.CommandLine

def program : String := "yyebnfc"

/-- The lines that show how the program is called. -/
def usage : String :=
  "usage: " ++ program ++ " [-h] [-o OUTPUT] [--max-alternatives MAX_ALTERNATIVES]\n" ++
  "               [--max-sequence MAX_SEQUENCE] [--drop-inlined] [-D]\n" ++
  "               grammar extra\n"

def help : String :=
  usage ++
  "\nYACC grammar to EBNF converter\n" ++
  "\npositional arguments:\n" ++
  "  grammar               YACC 문법 파일(%% 사이 규칙부만 읽음)\n" ++
  "  extra                 보조 EBNF 정의 파일(name ::= body ;)\n" ++
  "\noptions:\n" ++
  "  -h, --help            show this help message and exit\n" ++
  "  -o OUTPUT, --output OUTPUT\n" ++
  "                        출력 파일 경로(미지정시 stdout)\n" ++
  "  --max-alternatives MAX_ALTERNATIVES\n" ++
  "                        인라인 가능한 Alt의 최대 원자 대안 수\n" ++
  "  --max-sequence MAX_SEQUENCE\n" ++
  "                        인라인 가능한 원자 Seq의 최대 길이\n" ++
  "  --drop-inlined        모든 사용처에 인라인된 YACC 정의는 출력하지 않음\n" ++
  "  -D, --debug           디버그 정보를 상세 출력\n"

/-- What is shown about a wrong command. -/
def refusal (reason : String) : String := usage ++ program ++ ": error: " ++ reason ++ "\n"

end GrammarOutline.CommandLine
